import StyleAudit.Css.Selector
import StyleAudit.Proofs.Text.Trim

/-!
# Taking pseudo-classes out of a text, and cutting what is left

`stripPseudo` and `fragments` count characters.  Here what they do is told without counting.  A
pseudo-class stands at the front of a text (`PseudoAt`) if the text begins with one or two colons
and a name, which goes on as long as it can.  Parentheses behind the name belong to it up to the
first that closes; if none closes, nothing does (`Arguments`).  The text is gone through from left
to right: what stands at the front and is a pseudo-class is taken out, any other character is kept
(`Stripped`).  What is left is cut at the characters between fragments, and the pieces that are
empty are left out.

* `stripped_iff` --- what is taken out;
* `stretches_eq_splitOnP` --- how it is cut.
-/

namespace StyleAudit.Css

/-! ## Stretches -/

/-- The stretches are the pieces between the characters in question, the empty ones left out. -/
theorem stretches_eq_splitOnP (p : Char → Bool) (t : Text) :
    stretches p t = (t.splitOnP p).filter (· ≠ []) := by
  fun_induction stretches p t with
  | case1 => rfl
  | case2 c t hc ih => rw [ih, List.splitOnP_cons_eq_if_modifyHead, if_pos hc]; rfl
  | case3 c t hc ih =>
    have hrun : ∀ x ∈ c :: t.takeWhile (fun x => !p x), p x = false := by
      intro x hx
      rcases List.mem_cons.mp hx with rfl | hx
      · exact Bool.eq_false_iff.mpr hc
      · simpa using List.mem_takeWhile_imp hx
    have hsplit : c :: t = (c :: t.takeWhile fun x => !p x) ++ t.dropWhile fun x => !p x := by
      rw [List.cons_append, List.takeWhile_append_dropWhile]
    rw [ih, hsplit]
    cases hbehind : t.dropWhile fun x => !p x with
    | nil => rw [List.append_nil, List.splitOnP_eq_singleton hrun]; rfl
    | cons d u =>
      have hd : p d = true := by
        have := List.head?_dropWhile_not (fun x => !p x) t
        rw [hbehind] at this
        simpa using this
      rw [List.splitOnP_append_cons _ _ hd, List.splitOnP_eq_singleton hrun,
        List.splitOnP_cons_eq_if_modifyHead, if_pos hd]
      rfl

theorem stretches_append_cons {p : Char → Bool} {c : Char} (hc : p c = true) (u v : Text) :
    stretches p (u ++ c :: v) = stretches p u ++ stretches p v := by
  rw [stretches_eq_splitOnP, List.splitOnP_append_cons _ _ hc, List.filter_append,
    ← stretches_eq_splitOnP, ← stretches_eq_splitOnP]

theorem stretches_append_of_forall {p : Char → Bool} {u : Text} (hu : ∀ c ∈ u, p c = true)
    (v : Text) : stretches p (u ++ v) = stretches p v := by
  induction u with
  | nil => rfl
  | cons c u ih =>
    obtain ⟨hc, hu⟩ := List.forall_mem_cons.mp hu
    rw [List.cons_append, stretches, if_pos hc, ih hu]

/-! ## Arguments -/

/-- The first text is what stands in parentheses behind a name, and the second is what stands behind
that.  Arguments end at the first closing parenthesis; without one there are none. -/
inductive Arguments : Text → Text → Prop
  | closed {inside rest : Text} (h : ')' ∉ inside) : Arguments ('(' :: (inside ++ [')'])) rest
  | none {rest : Text} (h : ∀ inside behind, rest ≠ '(' :: (inside ++ ')' :: behind)) :
      Arguments [] rest

theorem Arguments.length_eq {arguments rest : Text} (h : Arguments arguments rest) :
    argumentsLength (arguments ++ rest) = arguments.length := by
  cases h with
  | @closed inside _ h =>
    rw [List.cons_append, ← List.append_cons]
    simp only [argumentsLength, Text.takeWhile_append_cons_of_notMem h]
    rw [if_pos (by simp)]
    simp
  | none h =>
    rw [List.nil_append]
    unfold argumentsLength
    split
    next t =>
      refine if_neg fun hlt => ?_
      obtain ⟨inside, behind, rfl, -⟩ := Text.exists_of_length_takeWhile_lt hlt
      exact h inside behind rfl
    next => rfl

theorem exists_arguments (t : Text) :
    ∃ arguments rest, t = arguments ++ rest ∧ Arguments arguments rest := by
  by_cases h : ∃ inside behind, t = '(' :: (inside ++ ')' :: behind)
  · obtain ⟨inside, behind, rfl⟩ := h
    have hclose : ')' ∈ inside ++ ')' :: behind := List.mem_append_right _ List.mem_cons_self
    obtain ⟨inside', behind', hsplit, hnot⟩ := List.eq_append_cons_of_mem hclose
    refine ⟨'(' :: (inside' ++ [')']), behind', ?_, .closed hnot⟩
    rw [hsplit, List.cons_append, ← List.append_cons]
  · exact ⟨[], t, rfl, .none fun inside behind heq => h ⟨inside, behind, heq⟩⟩

/-! ## Pseudo-classes -/

/-- A pseudo-class stands at the front of the first text, and the second is what stands behind
it. -/
inductive PseudoAt : Text → Text → Prop
  | intro {colons name arguments rest : Text} (hcolons : colons = [':'] ∨ colons = [':', ':'])
      (hne : name ≠ []) (hname : ∀ c ∈ name, isPseudoNameChar c = true)
      (hbehind : ∀ c ∈ (arguments ++ rest).head?, isPseudoNameChar c = false)
      (harguments : Arguments arguments rest) :
      PseudoAt (colons ++ name ++ arguments ++ rest) rest

/-- Behind the first colon of a pseudo-class stands another one or a name. -/
theorem PseudoAt.head {c : Char} {t rest : Text} (h : PseudoAt (c :: t) rest) :
    c = ':' ∧ ∃ d ∈ t.head?, d = ':' ∨ isPseudoNameChar d = true := by
  generalize hwhole : c :: t = whole at h
  obtain @⟨colons, name, arguments, rest, hcolons, hne, hname, -, -⟩ := h
  obtain ⟨d, w, rfl⟩ := List.exists_cons_of_ne_nil hne
  rcases hcolons with rfl | rfl
  · cases hwhole
    exact ⟨rfl, d, rfl, .inr (hname d List.mem_cons_self)⟩
  · cases hwhole
    exact ⟨rfl, ':', rfl, .inl rfl⟩

/-- How much of the text behind the first colon a pseudo-class takes. -/
theorem pseudoLength_append {colons name rest : Text} (hcolons : colons = [] ∨ colons = [':'])
    (hne : name ≠ []) (hname : ∀ c ∈ name, isPseudoNameChar c = true)
    (hrest : ∀ c ∈ rest.head?, isPseudoNameChar c = false) :
    pseudoLength (colons ++ (name ++ rest)) =
      colons.length + (name.length + argumentsLength rest) := by
  obtain ⟨c, w, rfl⟩ := List.exists_cons_of_ne_nil hne
  have hc : c ≠ ':' := by
    rintro rfl
    exact absurd (hname ':' List.mem_cons_self) (by decide)
  have htake : ((c :: w) ++ rest).takeWhile isPseudoNameChar = c :: w := by
    rw [Text.takeWhile_append_of_head? hrest]
    exact List.takeWhile_eq_self_iff.mpr hname
  have hlength : (if (colons ++ ((c :: w) ++ rest)).head? = some ':' then 1 else 0) =
      colons.length := by
    rcases hcolons with rfl | rfl
    · exact if_neg fun h => hc (Option.some.inj h)
    · rfl
  simp only [pseudoLength, hlength, List.drop_left, htake]
  rw [if_neg (by simp), ← List.append_assoc, ← List.length_append, List.drop_left,
    List.length_append, Nat.add_assoc]

theorem PseudoAt.length_eq {t rest : Text} (h : PseudoAt t rest) :
    ∃ u, t = ':' :: u ∧ 0 < pseudoLength u ∧ u.drop (pseudoLength u) = rest := by
  obtain @⟨colons, name, arguments, rest, hcolons, hne, hname, hbehind, harguments⟩ := h
  obtain ⟨more, rfl, hmore⟩ : ∃ more, colons = ':' :: more ∧ (more = [] ∨ more = [':']) := by
    rcases hcolons with rfl | rfl
    · exact ⟨[], rfl, .inl rfl⟩
    · exact ⟨[':'], rfl, .inr rfl⟩
  have hlength := pseudoLength_append hmore hne hname hbehind
  rw [harguments.length_eq] at hlength
  have hpos := List.length_pos_iff.mpr hne
  refine ⟨more ++ (name ++ (arguments ++ rest)), ?_, by omega, ?_⟩
  · rw [List.append_assoc, List.append_assoc, List.cons_append]
  · rw [hlength, ← List.append_assoc, ← List.append_assoc, ← Nat.add_assoc, ← List.length_append,
      ← List.length_append, List.drop_left]

/-- What counts as a pseudo-class is one. -/
theorem exists_pseudoAt {u : Text} (h : 0 < pseudoLength u) :
    ∃ rest, PseudoAt (':' :: u) rest := by
  obtain ⟨more, v, rfl, hmore, hlength⟩ : ∃ more v, u = more ++ v ∧ (more = [] ∨ more = [':']) ∧
      (if u.head? = some ':' then 1 else 0) = more.length := by
    by_cases hcolon : u.head? = some ':'
    · obtain ⟨v, rfl⟩ := List.head?_eq_some_iff.mp hcolon
      exact ⟨[':'], v, rfl, .inr rfl, rfl⟩
    · exact ⟨[], u, rfl, .inl rfl, if_neg hcolon⟩
  have hne : v.takeWhile isPseudoNameChar ≠ [] := by
    intro hnil
    simp only [pseudoLength, hlength, List.drop_left, hnil] at h
    exact absurd h (Nat.lt_irrefl 0)
  obtain ⟨arguments, rest, hbehind, harguments⟩ := exists_arguments (v.dropWhile isPseudoNameChar)
  have hv := List.takeWhile_append_dropWhile (p := isPseudoNameChar) (l := v)
  have hnext : ∀ c ∈ (arguments ++ rest).head?, isPseudoNameChar c = false := by
    intro c hc
    have hfirst := List.head?_dropWhile_not isPseudoNameChar v
    rw [hbehind, Option.mem_def.mp hc] at hfirst
    simpa using hfirst
  have hat : PseudoAt (':' :: more ++ v.takeWhile isPseudoNameChar ++ arguments ++ rest) rest :=
    .intro (hmore.imp (congrArg (List.cons ':')) (congrArg (List.cons ':'))) hne
      (fun c hc => List.mem_takeWhile_imp hc) hnext harguments
  rw [List.append_assoc, ← hbehind, List.append_assoc, hv] at hat
  exact ⟨rest, hat⟩

/-- A pseudo-class at the front is taken out. -/
theorem stripPseudo_of_pseudoAt {t rest : Text} (h : PseudoAt t rest) :
    stripPseudo t = stripPseudo rest := by
  obtain ⟨u, rfl, hpos, hdrop⟩ := h.length_eq
  rw [stripPseudo, if_pos ⟨rfl, hpos⟩, hdrop]

/-- Another character at the front is kept. -/
theorem stripPseudo_of_not_pseudoAt {c : Char} {t : Text} (h : ∀ rest, ¬ PseudoAt (c :: t) rest) :
    stripPseudo (c :: t) = c :: stripPseudo t := by
  rw [stripPseudo, if_neg]
  rintro ⟨rfl, hpos⟩
  obtain ⟨rest, hat⟩ := exists_pseudoAt hpos
  exact h rest hat

/-! ## Taking out -/

/-- The second text is the first without its pseudo-classes. -/
inductive Stripped : Text → Text → Prop
  | nil : Stripped [] []
  | pseudo {t rest s : Text} (h : PseudoAt t rest) (hrest : Stripped rest s) : Stripped t s
  | keep {c : Char} {t s : Text} (h : ∀ rest, ¬ PseudoAt (c :: t) rest) (ht : Stripped t s) :
      Stripped (c :: t) (c :: s)

theorem stripped_stripPseudo (t : Text) : Stripped t (stripPseudo t) := by
  fun_induction stripPseudo t with
  | case1 => exact .nil
  | case2 c t n h ih =>
    obtain ⟨rfl, hpos⟩ := h
    obtain ⟨rest, hat⟩ := exists_pseudoAt hpos
    obtain ⟨u, hu, -, hdrop⟩ := hat.length_eq
    cases hu
    rw [hdrop] at ih ⊢
    exact .pseudo hat ih
  | case3 c t n h ih =>
    refine .keep (fun rest hat => h ?_) ih
    obtain ⟨u, hu, hpos, -⟩ := hat.length_eq
    cases hu
    exact ⟨rfl, hpos⟩

/-- **What is taken out of a text** are its pseudo-classes, from left to right. -/
theorem stripped_iff {t s : Text} : Stripped t s ↔ s = stripPseudo t := by
  constructor
  · intro h
    induction h with
    | nil => rw [stripPseudo]
    | pseudo h _ ih => rw [ih, stripPseudo_of_pseudoAt h]
    | keep h _ ih => rw [ih, stripPseudo_of_not_pseudoAt h]
  · rintro rfl
    exact stripped_stripPseudo t

end StyleAudit.Css
