import Mathlib.Data.List.Infix
import StyleAudit.Report.Machine
import StyleAudit.Proofs.Text.Numbers
import StyleAudit.Proofs.Text.SourceLines

/-!
# What a workflow runner reads

A workflow runner reads a report line by line.  A command begins with two colons and ends its
head at the next two; in the head the level stands in front of the first space, and the properties
behind it are parted by commas, each with its name in front of the first equals sign.  Characters
that would end a line, a property or a head are to be written as codes, which the runner reads as
the characters they stand for.

`workflowCommand` writes every field as it is.  Hence what is read is what was meant only as far as
the fields are *plain*: they hold nothing that ends a line, a property or a head, and nothing that
is itself a code.  Plainness is not merely enough.  A comma or a pair of colons inside a value makes
the value that is read shorter, a code does so too, and what is read is never longer than the line
(`size_readProperties_le`), so nothing else can make up for it.  A line feed makes one line too
many.

* `read?_written_iff` --- a command that is written as it is reads back exactly if it is plain;
* `readCommands_workflow_iff` --- the main result: a report reads back exactly if the diagnostics
  that are shown are plain;
* `exists_command_misread` --- a comma in the name of a file suffices.
-/

namespace StyleAudit.Text

/-! ## Cutting a text at its first occurrence of another -/

/-- The text in front of the first place where `sep` stands, and the text behind it. -/
def cutAt (sep : Text) : Text → Option (Text × Text)
  | [] => none
  | c :: t =>
    if sep.isPrefixOf (c :: t) then some ([], (c :: t).drop sep.length)
    else (cutAt sep t).map fun cut => (c :: cut.1, cut.2)

variable {sep : Text}

theorem cutAt_append_self (hsep : sep ≠ []) (b : Text) : cutAt sep (sep ++ b) = some ([], b) := by
  obtain ⟨c, s, rfl⟩ := List.exists_cons_of_ne_nil hsep
  have hfront : (c :: s).isPrefixOf (c :: (s ++ b)) = true :=
    List.isPrefixOf_iff_prefix.mpr (List.prefix_append (c :: s) b)
  show cutAt (c :: s) (c :: (s ++ b)) = _
  rw [cutAt, if_pos hfront, ← List.cons_append, List.drop_left]

/-- The cut is where `sep` was put exactly if `sep` does not stand further up, which includes that
it does not begin there. -/
theorem cutAt_append_iff (hsep : sep ≠ []) (a b : Text) :
    cutAt sep (a ++ (sep ++ b)) = some (a, b) ↔ ¬ sep <:+: a ++ sep.dropLast := by
  have hshort : sep.dropLast.length < sep.length := by
    have hpos := List.length_pos_of_ne_nil hsep
    rw [List.length_dropLast]
    omega
  induction a with
  | nil =>
    refine iff_of_true (cutAt_append_self hsep b) fun h => ?_
    have hle := h.length_le
    rw [List.nil_append] at hle
    omega
  | cons c a ih =>
    have hcons : sep <:+: c :: a ++ sep.dropLast ↔
        sep <+: c :: a ++ sep.dropLast ∨ sep <:+: a ++ sep.dropLast := List.infix_cons_iff
    have hhere : sep <+: c :: a ++ (sep ++ b) ↔ sep <+: c :: a ++ sep.dropLast := by
      have hlast : sep = sep.dropLast ++ [sep.getLast hsep] :=
        (List.dropLast_append_getLast hsep).symm
      have hlonger : c :: a ++ sep.dropLast <+: c :: a ++ (sep ++ b) := by
        refine (List.prefix_append_right_inj _).mpr ?_
        exact (List.dropLast_prefix sep).trans (List.prefix_append _ _)
      refine ⟨fun h => List.prefix_of_prefix_length_le h hlonger ?_, fun h => h.trans hlonger⟩
      rw [List.length_append, List.length_cons, List.length_dropLast]
      omega
    rw [hcons, ← hhere, List.cons_append, cutAt]
    by_cases hfirst : sep <+: c :: (a ++ (sep ++ b))
    · rw [if_pos (List.isPrefixOf_iff_prefix.mpr hfirst)]
      refine iff_of_false (fun h => ?_) (not_not_intro (.inl hfirst))
      cases congrArg (fun cut => cut.map Prod.fst) h
    · rw [if_neg fun h => hfirst (List.isPrefixOf_iff_prefix.mp h), or_iff_right hfirst]
      refine Iff.trans ?_ ih
      constructor
      · intro h
        obtain ⟨cut, hcut, heq⟩ := Option.map_eq_some_iff.mp h
        rw [hcut]
        cases heq
        rfl
      · intro h
        rw [h]
        rfl

/-- A character that does not stand further up is cut at. -/
theorem cutAt_append_cons {c : Char} {a : Text} (h : c ∉ a) (b : Text) :
    cutAt [c] (a ++ c :: b) = some (a, b) := by
  have hfirst : ¬ [c] <:+: a ++ [c].dropLast := by
    rw [List.dropLast_singleton, List.append_nil, List.singleton_infix_iff]
    exact h
  exact (cutAt_append_iff (List.cons_ne_nil c []) a b).mpr hfirst

/-- What is cut is the text. -/
theorem eq_of_cutAt_eq_some {t a b : Text} (h : cutAt sep t = some (a, b)) :
    t = a ++ (sep ++ b) := by
  induction t generalizing a with
  | nil => cases h
  | cons c t ih =>
    rw [cutAt] at h
    split at h
    case isTrue hfront =>
      cases h
      exact (List.prefix_iff_eq_append.mp (List.isPrefixOf_iff_prefix.mp hfront)).symm
    case isFalse =>
      obtain ⟨⟨a', b'⟩, hcut, heq⟩ := Option.map_eq_some_iff.mp h
      cases heq
      rw [ih hcut, List.cons_append]

/-- The cut is no further down than any place where `sep` stands. -/
theorem exists_cutAt_append (hsep : sep ≠ []) (a b : Text) :
    ∃ a' b', cutAt sep (a ++ (sep ++ b)) = some (a', b') ∧ a' <+: a := by
  induction a with
  | nil => exact ⟨[], b, cutAt_append_self hsep b, List.prefix_rfl⟩
  | cons c a ih =>
    rw [List.cons_append, cutAt]
    split
    case isTrue => exact ⟨[], _, rfl, List.nil_prefix⟩
    case isFalse =>
      obtain ⟨a', b', hcut, ha⟩ := ih
      exact ⟨c :: a', b', by rw [hcut]; rfl, (List.prefix_cons_inj c).mpr ha⟩

/-! ## Blocks of a text -/

variable {c : Char}

/-- A block without a given character lies on one side of it. -/
theorem infix_append_cons_iff {u v w : Text} (hw : c ∉ w) :
    w <:+: u ++ c :: v ↔ w <:+: u ∨ w <:+: v := by
  constructor
  · rintro ⟨x, y, h⟩
    obtain ⟨z, hu, -⟩ | ⟨z, hxw, hv⟩ := List.append_eq_append_iff.mp h
    · exact .inl ⟨x, z, hu.symm⟩
    rcases z with _ | ⟨d, z⟩
    · exact .inl ⟨x, [], by rw [List.append_nil, hxw, List.append_nil]⟩
    obtain ⟨rfl, rfl⟩ := List.cons.inj hv
    obtain ⟨m, -, hcross⟩ | ⟨m, -, hcross⟩ := List.append_eq_append_iff.mp hxw
    · exact absurd (hcross ▸ List.mem_append_right m List.mem_cons_self) hw
    rcases m with _ | ⟨e, m⟩
    · rw [List.nil_append] at hcross
      exact absurd (hcross ▸ List.mem_cons_self) hw
    obtain ⟨-, rfl⟩ := List.cons.inj hcross
    exact .inr ⟨m, y, rfl⟩
  · rintro (h | h)
    · exact h.trans (List.prefix_append _ _).isInfix
    · exact h.trans ((List.suffix_cons _ _).trans (List.suffix_append _ _)).isInfix

end StyleAudit.Text

namespace StyleAudit.Report

open Text

/-! ## Codes -/

/-- The codes of a message, each with the character it stands for. -/
def messageCodes : List (Text × Char) :=
  [("%25".toList, '%'), ("%0D".toList, '\r'), ("%0A".toList, '\n')]

/-- The codes of a value. -/
def valueCodes : List (Text × Char) := messageCodes ++ [("%3A".toList, ':'), ("%2C".toList, ',')]

/-- A text with each code replaced by the character it stands for. -/
def decode (codes : List (Text × Char)) : Text → Text
  | a :: b :: c :: t =>
    match codes.lookup [a, b, c] with
    | some x => x :: decode codes t
    | none => a :: decode codes (b :: c :: t)
  | t => t

variable {codes : List (Text × Char)}

theorem length_decode_le (t : Text) : (decode codes t).length ≤ t.length := by
  fun_induction decode codes t with
  | case1 a b c t x hx ih =>
    simp only [List.length_cons]
    omega
  | case2 a b c t hnone ih =>
    simp only [List.length_cons] at ih ⊢
    omega
  | case3 t => exact Nat.le_refl _

/-- **Decoding changes a text that holds a code, and no other.** -/
theorem decode_eq_self_iff (hcodes : ∀ code ∈ codes, code.1.length = 3) (t : Text) :
    decode codes t = t ↔ ∀ code ∈ codes, ¬ code.1 <:+: t := by
  fun_induction decode codes t with
  | case1 a b c t x hx ih =>
    refine iff_of_false (fun h => ?_) fun h => ?_
    · have hle : (decode codes t).length ≤ t.length := length_decode_le t
      have heq := congrArg List.length h
      simp only [List.length_cons] at heq
      omega
    · obtain ⟨front, behind, hsplit, -⟩ := List.lookup_eq_some_iff.mp hx
      have hmem : ([a, b, c], x) ∈ codes := hsplit ▸ List.mem_append_right _ List.mem_cons_self
      exact h _ hmem (List.prefix_append [a, b, c] t).isInfix
  | case2 a b c t hnone ih =>
    have hhere : ∀ code ∈ codes, ¬ code.1 <+: a :: b :: c :: t := by
      intro code hcode h
      rw [List.prefix_iff_eq_take, hcodes code hcode] at h
      have hne := List.lookup_eq_none_iff.mp hnone code hcode
      exact bne_iff_ne.mp hne h.symm
    rw [List.cons_inj_right, ih]
    refine forall₂_congr fun code hcode => ?_
    have hcons : code.1 <:+: a :: b :: c :: t ↔
        code.1 <+: a :: b :: c :: t ∨ code.1 <:+: b :: c :: t := List.infix_cons_iff
    rw [hcons, or_iff_right (hhere code hcode)]
  | case3 t hshort =>
    refine iff_of_true rfl fun code hcode h => ?_
    have hle := h.length_le
    rw [hcodes code hcode] at hle
    obtain ⟨a, b, c, u, rfl⟩ : ∃ a b c u, t = a :: b :: c :: u :=
      match t, hle with
      | a :: b :: c :: u, _ => ⟨a, b, c, u, rfl⟩
    exact hshort a b c u rfl

theorem length_of_mem_messageCodes : ∀ code ∈ messageCodes, code.1.length = 3 := by decide

theorem length_of_mem_valueCodes : ∀ code ∈ valueCodes, code.1.length = 3 := by decide

/-! ## Properties -/

/-- A property as it is written. -/
def writtenProperty (p : Text × Text) : Text := p.1 ++ '=' :: p.2

/-- Properties as they are written. -/
def writtenProperties (ps : List (Text × Text)) : Text := joinWith ',' (ps.map writtenProperty)

/-- A property as it is read; without an equals sign there is none. -/
def readProperty? (t : Text) : Option (Text × Text) :=
  (cutAt ['='] t).map fun cut => (cut.1, decode valueCodes cut.2)

/-- Properties as they are read. -/
def readProperties (t : Text) : List (Text × Text) := (splitOn ',' t).filterMap readProperty?

/-- The room that properties take, with an equals sign and a comma for each. -/
def size : List (Text × Text) → Nat
  | [] => 0
  | p :: ps => p.1.length + p.2.length + 2 + size ps

theorem size_append (ps qs : List (Text × Text)) : size (ps ++ qs) = size ps + size qs := by
  induction ps with
  | nil => exact (Nat.zero_add _).symm
  | cons p ps ih =>
    rw [List.cons_append, size, size, ih]
    omega

theorem length_writtenProperty (p : Text × Text) :
    (writtenProperty p).length = p.1.length + p.2.length + 1 := by
  rw [writtenProperty, List.length_append, List.length_cons, Nat.add_assoc]

theorem writtenProperties_cons (p q : Text × Text) (ps : List (Text × Text)) :
    writtenProperties (p :: q :: ps) = writtenProperty p ++ ',' :: writtenProperties (q :: ps) :=
  rfl

theorem writtenProperties_cons_eq (p : Text × Text) (ps : List (Text × Text)) :
    writtenProperties (p :: ps) =
      writtenProperty p ++ ps.flatMap fun q => ',' :: writtenProperty q := by
  induction ps generalizing p with
  | nil => exact (List.append_nil _).symm
  | cons q ps ih => rw [writtenProperties_cons, ih, List.flatMap_cons, List.cons_append]

theorem mem_writtenProperties_iff {x : Char} (hcomma : x ≠ ',') (hequals : x ≠ '=')
    (ps : List (Text × Text)) : x ∈ writtenProperties ps ↔ ∃ p ∈ ps, x ∈ p.1 ∨ x ∈ p.2 := by
  rcases ps with _ | ⟨p, ps⟩
  · simp [writtenProperties, joinWith]
  · rw [writtenProperties_cons_eq]
    simp [writtenProperty, hcomma, hequals, or_assoc]

/-- Written properties take that room, but for the last comma. -/
theorem length_writtenProperties {ps : List (Text × Text)} (hne : ps ≠ []) :
    (writtenProperties ps).length + 1 = size ps := by
  induction ps with
  | nil => exact absurd rfl hne
  | cons p ps ih =>
    cases ps with
    | nil =>
      show (writtenProperty p).length + 1 = _
      rw [length_writtenProperty]
      rfl
    | cons q ps =>
      have hlen := ih (List.cons_ne_nil q ps)
      rw [writtenProperties_cons, List.length_append, List.length_cons, length_writtenProperty,
        size]
      omega

/-- A property that is read is no longer than the text. -/
theorem length_of_readProperty? {t : Text} {p : Text × Text} (h : readProperty? t = some p) :
    p.1.length + p.2.length + 1 ≤ t.length := by
  obtain ⟨⟨k, v⟩, hcut, rfl⟩ := Option.map_eq_some_iff.mp h
  have hle : (decode valueCodes v).length ≤ v.length := length_decode_le v
  rw [eq_of_cutAt_eq_some hcut, List.length_append, List.length_append, List.length_singleton]
  show k.length + (decode valueCodes v).length + 1 ≤ _
  omega

theorem size_filterMap_cons_le (row : Text) (rows : List Text) :
    size ((row :: rows).filterMap readProperty?) ≤
      row.length + 1 + size (rows.filterMap readProperty?) := by
  rw [List.filterMap_cons]
  split
  case h_1 => exact Nat.le_add_left _ _
  case h_2 p hp =>
    have hlen := length_of_readProperty? hp
    rw [size]
    omega

theorem size_filterMap_le (row : Text) (rows : List Text) :
    size ((row :: rows).filterMap readProperty?) ≤ (joinWith ',' (row :: rows)).length + 1 := by
  induction rows generalizing row with
  | nil => exact size_filterMap_cons_le row []
  | cons next rows ih =>
    have hle := size_filterMap_cons_le row (next :: rows)
    have hrest := ih next
    show _ ≤ (row ++ ',' :: joinWith ',' (next :: rows)).length + 1
    rw [List.length_append, List.length_cons]
    omega

/-- **What is read takes no more room than what was written.** -/
theorem size_readProperties_le (t : Text) : size (readProperties t) ≤ t.length + 1 := by
  obtain ⟨row, rows, hrows⟩ := List.exists_cons_of_ne_nil (splitOn_ne_nil ',' t)
  have hle := size_filterMap_le row rows
  rwa [← hrows, joinWith_splitOn] at hle

/-- The first property is read up to the first comma, and the rest is read behind it. -/
theorem readProperties_writtenProperties_cons {p : Text × Text} (hcomma : ',' ∉ p.1)
    (hequals : '=' ∉ p.1) {first : Text} {more : List Text}
    (hvalue : splitOn ',' p.2 = first :: more)
    (ps : List (Text × Text)) :
    readProperties (writtenProperties (p :: ps)) = (p.1, decode valueCodes first) ::
      (more.filterMap readProperty? ++ readProperties (writtenProperties ps)) := by
  have hname : ',' ∉ p.1 ++ ['='] := fun h =>
    (List.mem_append.mp h).elim hcomma fun h => absurd (List.mem_singleton.mp h) (by decide)
  have hsplit : splitOn ',' (writtenProperty p) = (p.1 ++ '=' :: first) :: more := by
    have h := splitOn_append_of_notMem hname hvalue
    rwa [List.append_assoc, List.append_assoc] at h
  have hread : readProperty? (p.1 ++ '=' :: first) = some (p.1, decode valueCodes first) := by
    rw [readProperty?, cutAt_append_cons hequals]
    rfl
  have hrest : splitOn ',' (writtenProperties (p :: ps)) =
      (p.1 ++ '=' :: first) :: more ++
        if ps = [] then [] else splitOn ',' (writtenProperties ps) := by
    rcases ps with _ | ⟨q, ps⟩
    · rw [if_pos rfl, List.append_nil, ← hsplit]
      rfl
    · rw [if_neg (List.cons_ne_nil q ps), writtenProperties_cons, splitOn_append_cons_append,
        hsplit]
  have htail :
      (if ps = [] then [] else splitOn ',' (writtenProperties ps)).filterMap readProperty? =
      readProperties (writtenProperties ps) := by
    split
    case isTrue h => rw [h]; rfl
    case isFalse => rfl
  rw [readProperties, hrest, List.filterMap_append, htail, List.filterMap_cons, hread]
  rfl

/-- Whether the names of properties are such that each ends where the equals sign stands, and no
line or head ends inside it. -/
def Names (ps : List (Text × Text)) : Prop :=
  ∀ p ∈ ps, ',' ∉ p.1 ∧ '=' ∉ p.1 ∧ ':' ∉ p.1 ∧ '\n' ∉ p.1

/-- **Properties read back exactly if their values hold no comma and no code.**  Nothing can come
behind them. -/
theorem readProperties_writtenProperties_iff {ps : List (Text × Text)} (hnames : Names ps)
    (qs : List (Text × Text)) :
    readProperties (writtenProperties ps) = ps ++ qs ↔
      qs = [] ∧ ∀ p ∈ ps, ',' ∉ p.2 ∧ ∀ code ∈ valueCodes, ¬ code.1 <:+: p.2 := by
  induction ps generalizing qs with
  | nil => exact ⟨fun h => ⟨h.symm, List.forall_mem_nil _⟩, fun h => h.1.symm⟩
  | cons p ps ih =>
    obtain ⟨hcomma, hequals, -⟩ := hnames p List.mem_cons_self
    have ih := ih (fun q hq => hnames q (List.mem_cons_of_mem _ hq)) qs
    obtain ⟨first, more, hvalue⟩ := List.exists_cons_of_ne_nil (splitOn_ne_nil ',' p.2)
    have hjoin : joinWith ',' (first :: more) = p.2 := hvalue ▸ joinWith_splitOn ',' p.2
    rw [readProperties_writtenProperties_cons hcomma hequals hvalue, List.cons_append,
      List.forall_mem_cons, ← decode_eq_self_iff length_of_mem_valueCodes]
    constructor
    · intro h
      obtain ⟨hfirst, hrest⟩ := List.cons.inj h
      have hdecoded : decode valueCodes first = p.2 := congrArg Prod.snd hfirst
      rcases more with _ | ⟨next, more⟩
      · have hplain : first = p.2 := hjoin
        rw [hplain] at hdecoded
        obtain ⟨hqs, hps⟩ := ih.mp hrest
        exact ⟨hqs, ⟨hplain ▸ not_mem_of_mem_splitOn (hvalue ▸ List.mem_cons_self), hdecoded⟩, hps⟩
      · -- a decoded text is no longer, and the value goes on behind the comma
        have hle : (decode valueCodes first).length ≤ first.length := length_decode_le first
        have hlen : first.length + 1 ≤ p.2.length := by
          rw [← hjoin]
          show _ ≤ (first ++ ',' :: joinWith ',' (next :: more)).length
          rw [List.length_append, List.length_cons]
          omega
        rw [hdecoded] at hle
        omega
    · rintro ⟨hqs, ⟨hmem, hdecoded⟩, hps⟩
      obtain ⟨rfl, rfl⟩ := List.cons.inj (hvalue.symm.trans (splitOn_of_notMem hmem))
      rw [hdecoded]
      exact congrArg (p :: ·) (ih.mpr ⟨hqs, hps⟩)

/-! ## Commands -/

/-- What stands in front of a head and behind it. -/
def colons : Text := [':', ':']

/-- A pair of colons in a text with a colon behind it. -/
theorem colons_infix_concat_iff (t : Text) :
    colons <:+: t ++ [':'] ↔ colons <:+: t ∨ t.getLast? = some ':' := by
  have hend : colons <:+ t ++ [':'] ↔ t.getLast? = some ':' := by
    rw [List.getLast?_eq_some_iff]
    constructor
    · rintro ⟨u, h⟩
      refine ⟨u, List.append_cancel_right (h.symm.trans ?_)⟩
      rw [List.append_assoc]
      rfl
    · rintro ⟨u, rfl⟩
      exact ⟨u, by rw [List.append_assoc]; rfl⟩
  rw [List.infix_concat_iff, hend, or_comm]

/-- Pairs of colons in properties lie in the values, or at the very end. -/
theorem colons_infix_writtenProperties_iff {ps : List (Text × Text)} (hnames : Names ps) :
    colons <:+: writtenProperties ps ++ [':'] ↔
      (∃ p ∈ ps, colons <:+: p.2) ∨ ∃ p ∈ ps.getLast?, p.2.getLast? = some ':' := by
  -- a name holds no colon, and an equals sign parts it from its value
  have hproperty : ∀ p ∈ ps, ∀ u, colons <:+: writtenProperty p ++ u ↔ colons <:+: p.2 ++ u := by
    intro p hp u
    have hname : ¬ colons <:+: p.1 := fun h =>
      (hnames p hp).2.2.1 (h.subset (List.mem_cons_self : ':' ∈ colons))
    rw [writtenProperty, List.append_assoc, List.cons_append,
      infix_append_cons_iff (by decide : '=' ∉ colons), or_iff_right hname]
  induction ps with
  | nil => decide
  | cons p ps ih =>
    have ih := ih (fun q hq => hnames q (List.mem_cons_of_mem _ hq))
      fun q hq => hproperty q (List.mem_cons_of_mem _ hq)
    have hp := hproperty p List.mem_cons_self
    rcases ps with _ | ⟨q, ps⟩
    · show colons <:+: writtenProperty p ++ [':'] ↔ _
      rw [hp, colons_infix_concat_iff]
      simp
    · have hwhole : writtenProperties (p :: q :: ps) ++ [':'] =
          writtenProperty p ++ ',' :: (writtenProperties (q :: ps) ++ [':']) := by
        rw [writtenProperties_cons, List.append_assoc, List.cons_append]
      have hhere : colons <:+: writtenProperty p ↔ colons <:+: p.2 := by
        have h := hp []
        rwa [List.append_nil, List.append_nil] at h
      rw [hwhole, infix_append_cons_iff (by decide : ',' ∉ colons), hhere, List.getLast?_cons_cons]
      refine (or_congr_right ih).trans ?_
      rw [← or_assoc]
      exact or_congr_left
        (List.exists_mem_cons_iff (fun r : Text × Text => colons <:+: r.2) p _).symm

/-- What one line tells a workflow runner. -/
structure WorkflowCommand where
  level : Text
  properties : List (Text × Text)
  message : Text
  deriving DecidableEq

namespace WorkflowCommand

/-- A command in front of its message. -/
def head (c : WorkflowCommand) : Text := c.level ++ ' ' :: writtenProperties c.properties

/-- A command written with its fields as they are. -/
def written (c : WorkflowCommand) : Text :=
  colons ++ (c.head ++ (colons ++ c.message))

/-- The command that a line is read as. -/
def read? (line : Text) : Option WorkflowCommand :=
  if colons.isPrefixOf line then
    (cutAt colons (line.drop 2)).map fun cut =>
      let front := (cutAt [' '] cut.1).getD (cut.1, [])
      { level := front.1
        properties := readProperties front.2
        message := decode messageCodes cut.2 }
  else none

/-- Whether the parts of a command that are no one's to choose are as they should be. -/
structure Regular (c : WorkflowCommand) : Prop where
  level : ' ' ∉ c.level ∧ ':' ∉ c.level ∧ '\n' ∉ c.level
  names : Names c.properties
  properties : c.properties ≠ []

/-- Whether a command has nothing in it that would have to be written as a code. -/
structure Plain (c : WorkflowCommand) : Prop where
  values : ∀ p ∈ c.properties, ',' ∉ p.2 ∧ ∀ code ∈ valueCodes, ¬ code.1 <:+: p.2
  head : ¬ colons <:+: c.head ++ [':']
  message : ∀ code ∈ messageCodes, ¬ code.1 <:+: c.message

variable {c : WorkflowCommand}

theorem read?_written (c : WorkflowCommand) : read? c.written =
    (cutAt colons (c.head ++ (colons ++ c.message))).map fun cut =>
      { level := ((cutAt [' '] cut.1).getD (cut.1, [])).1
        properties := readProperties ((cutAt [' '] cut.1).getD (cut.1, [])).2
        message := decode messageCodes cut.2 } := by
  have hfront : colons.isPrefixOf c.written = true :=
    List.isPrefixOf_iff_prefix.mpr (List.prefix_append _ _)
  rw [read?, if_pos hfront]
  rfl

/-- Properties cannot be read out of less than was written. -/
theorem readProperties_ne (hregular : c.Regular) {t : Text}
    (hlt : t.length < (writtenProperties c.properties).length) (qs : List (Text × Text)) :
    readProperties t ≠ c.properties ++ qs := by
  intro h
  have hle := size_readProperties_le t
  have hsize := length_writtenProperties hregular.properties
  rw [h, size_append] at hle
  omega

/-- **A command that is written as it is reads back exactly if it is plain**, and it reads back with
no more properties than it has. -/
theorem read?_written_iff (hregular : c.Regular) (qs : List (Text × Text)) :
    read? c.written = some { c with properties := c.properties ++ qs } ↔ qs = [] ∧ c.Plain := by
  have hsep : colons ≠ [] := List.cons_ne_nil _ _
  rw [read?_written]
  by_cases hhead : colons <:+: c.head ++ [':']
  · -- the head that is read is too short to hold the properties
    refine iff_of_false (fun h => ?_) fun h => h.2.head hhead
    obtain ⟨⟨a, b⟩, hcut, heq⟩ := Option.map_eq_some_iff.mp h
    obtain ⟨a', b', hcut', hfront⟩ := exists_cutAt_append hsep c.head c.message
    obtain ⟨rfl, rfl⟩ := Prod.mk.inj (Option.some.inj (hcut.symm.trans hcut'))
    have hne : a ≠ c.head := by
      rintro rfl
      obtain rfl : b = c.message :=
        (List.append_cancel_left (List.append_cancel_left (eq_of_cutAt_eq_some hcut))).symm
      exact (cutAt_append_iff hsep c.head c.message).mp hcut hhead
    have hshort : a.length < c.level.length + 1 + (writtenProperties c.properties).length := by
      have hle := hfront.length_le
      have hlt := hle.lt_of_ne fun h => hne (hfront.eq_of_length h)
      rw [head, List.length_append, List.length_cons] at hlt
      omega
    obtain ⟨hlevel, hproperties, -⟩ := WorkflowCommand.mk.inj heq
    refine readProperties_ne hregular ?_ qs hproperties
    rcases hspace : cutAt [' '] a with _ | ⟨l, t⟩
    · obtain ⟨p, ps, hp⟩ := List.exists_cons_of_ne_nil hregular.properties
      have hsize := length_writtenProperties hregular.properties
      rw [hp, size, ← hp] at hsize
      show 0 < _
      omega
    · rw [hspace] at hlevel
      have hlen := congrArg List.length (eq_of_cutAt_eq_some hspace)
      have hl : l = c.level := hlevel
      rw [List.length_append, List.length_append, List.length_singleton, hl] at hlen
      show t.length < _
      omega
  · have hcut : cutAt colons (c.head ++ (colons ++ c.message)) = some (c.head, c.message) :=
      (cutAt_append_iff hsep c.head c.message).mpr hhead
    have hspace : cutAt [' '] c.head = some (c.level, writtenProperties c.properties) :=
      cutAt_append_cons hregular.level.1 _
    rw [hcut, Option.map_some, hspace, Option.some_inj, WorkflowCommand.mk.injEq]
    show _ = _ ∧ readProperties (writtenProperties c.properties) = _ ∧ _ = _ ↔ _
    rw [readProperties_writtenProperties_iff hregular.names,
      decode_eq_self_iff length_of_mem_messageCodes]
    constructor
    · rintro ⟨-, ⟨hqs, hvalues⟩, hmessage⟩
      exact ⟨hqs, hvalues, hhead, hmessage⟩
    · rintro ⟨hqs, hplain⟩
      exact ⟨rfl, ⟨hqs, hplain.values⟩, hplain.message⟩

/-- The head of a command is not cut short exactly if no value holds a pair of colons and the last
one does not end in a colon. -/
theorem colons_infix_head_iff (hregular : c.Regular) :
    colons <:+: c.head ++ [':'] ↔
      (∃ p ∈ c.properties, colons <:+: p.2) ∨
        ∃ p ∈ c.properties.getLast?, p.2.getLast? = some ':' := by
  have hspace : ' ' ∉ colons := by decide
  have hlevel : ¬ colons <:+: c.level := fun h =>
    hregular.level.2.1 (h.subset (List.mem_cons_self : ':' ∈ colons))
  rw [head, List.append_assoc, List.cons_append, infix_append_cons_iff hspace, or_iff_right hlevel]
  exact colons_infix_writtenProperties_iff hregular.names

/-- A line feed comes from a value or from the message. -/
theorem newline_notMem_written_iff (hregular : c.Regular) :
    '\n' ∉ c.written ↔ (∀ p ∈ c.properties, '\n' ∉ p.2) ∧ '\n' ∉ c.message := by
  have hcolons : '\n' ∉ colons := by decide
  have hproperties : '\n' ∉ writtenProperties c.properties ↔ ∀ p ∈ c.properties, '\n' ∉ p.2 := by
    rw [mem_writtenProperties_iff (by decide) (by decide), not_exists]
    refine forall_congr' fun p => ?_
    rw [not_and, not_or]
    exact forall_congr' fun hp => and_iff_right (hregular.names p hp).2.2.2
  rw [← hproperties, written, head]
  simp [hcolons, hregular.level.2.2]

end WorkflowCommand

/-! ## Diagnostics as commands -/

/-- A property with a number as its value, if there is one. -/
def numbered (name : Text) (n : Option Nat) : List (Text × Text) :=
  n.toList.map fun n => (name, (toString n).toList)

/-- What is to be told of a diagnostic. -/
def commandOf (d : Diagnostic) : WorkflowCommand where
  level := (workflowLevel d.severity).toList
  properties := ("file".toList, d.path.text) :: ("title".toList, d.checkId.toList) ::
    (numbered "line".toList d.line ++ numbered "col".toList d.column)
  message := d.message.toList

/-- What is told of a diagnostic: the column only behind a line. -/
def toldOf (d : Diagnostic) : WorkflowCommand where
  level := (workflowLevel d.severity).toList
  properties := ("file".toList, d.path.text) :: ("title".toList, d.checkId.toList) ::
    (numbered "line".toList d.line ++ numbered "col".toList (d.line.bind fun _ => d.column))
  message := d.message.toList

/-- What is not told. -/
def untold (d : Diagnostic) : List (Text × Text) :=
  if d.line = none then numbered "col".toList d.column else []

theorem commandOf_eq (d : Diagnostic) :
    commandOf d = { toldOf d with properties := (toldOf d).properties ++ untold d } := by
  rcases hline : d.line with _ | n <;> simp [commandOf, toldOf, untold, numbered, hline]

theorem toList_workflowCommand (d : Diagnostic) :
    (workflowCommand d).toList = (toldOf d).written ++ ['\n'] := by
  have hplace : (workflowPosition d).toList =
      (numbered "line".toList d.line ++
        numbered "col".toList (d.line.bind fun _ => d.column)).flatMap
          fun p => ',' :: writtenProperty p := by
    rcases hline : d.line with _ | line <;> rcases hcolumn : d.column with _ | column <;>
      simp [workflowPosition, numbered, writtenProperty, hline, hcolumn]
  rw [WorkflowCommand.written, WorkflowCommand.head, toldOf, writtenProperties_cons_eq,
    List.flatMap_cons, ← hplace]
  simp [workflowCommand, writtenProperty, colons]

/-- Whether a value holds nothing that ends a line, a property or a head, and no code. -/
structure PlainValue (v : Text) : Prop where
  line : '\n' ∉ v
  property : ',' ∉ v
  head : ¬ colons <:+: v
  codes : ∀ code ∈ valueCodes, ¬ code.1 <:+: v

instance : DecidablePred PlainValue := fun v =>
  decidable_of_iff
    ('\n' ∉ v ∧ ',' ∉ v ∧ ¬ colons <:+: v ∧ ∀ code ∈ valueCodes, ¬ code.1 <:+: v)
    ⟨fun h => ⟨h.1, h.2.1, h.2.2.1, h.2.2.2⟩, fun h => ⟨h.line, h.property, h.head, h.codes⟩⟩

/-- Whether all that there is to tell of a diagnostic can be told as it is. -/
structure IsPlain (d : Diagnostic) : Prop where
  path : PlainValue d.path.text
  title : PlainValue d.checkId.toList
  /-- Without a line the name of the check is the last value. -/
  title_end : d.line = none → d.checkId.toList.getLast? ≠ some ':'
  message : '\n' ∉ d.message.toList ∧ ∀ code ∈ messageCodes, ¬ code.1 <:+: d.message.toList
  /-- A column is told only behind a line. -/
  column : d.line = none → d.column = none

instance : DecidablePred IsPlain := fun d =>
  decidable_of_iff (PlainValue d.path.text ∧ PlainValue d.checkId.toList ∧
      (d.line = none → d.checkId.toList.getLast? ≠ some ':') ∧
      ('\n' ∉ d.message.toList ∧ ∀ code ∈ messageCodes, ¬ code.1 <:+: d.message.toList) ∧
      (d.line = none → d.column = none))
    ⟨fun h => ⟨h.1, h.2.1, h.2.2.1, h.2.2.2.1, h.2.2.2.2⟩,
      fun h => ⟨h.path, h.title, h.title_end, h.message, h.column⟩⟩

theorem plainValue_number (n : Nat) : PlainValue (toString n).toList := by
  refine ⟨notMem_number (by decide) n, notMem_number (by decide) n, fun h => ?_,
    fun code hcode h => ?_⟩
  · exact notMem_number (by decide) n (h.subset (List.mem_cons_self : ':' ∈ colons))
  · have hpercent : ∀ code ∈ valueCodes, '%' ∈ code.1 := by decide
    exact notMem_number (by decide) n (h.subset (hpercent code hcode))

theorem getLast?_number_ne (n : Nat) : (toString n).toList.getLast? ≠ some ':' := by
  intro h
  exact notMem_number (by decide) n (List.mem_of_getLast? h)

theorem exists_of_mem_numbered {name : Text} {n : Option Nat} {p : Text × Text}
    (h : p ∈ numbered name n) : ∃ k : Nat, p = (name, (toString k).toList) := by
  obtain ⟨k, -, rfl⟩ := List.mem_map.mp h
  exact ⟨k, rfl⟩

/-- What holds of every number holds of all values if it holds of the file and of the check. -/
theorem forall_mem_toldOf {Q : Text → Prop} (hnumber : ∀ n : Nat, Q (toString n).toList)
    (d : Diagnostic) :
    (∀ p ∈ (toldOf d).properties, Q p.2) ↔ Q d.path.text ∧ Q d.checkId.toList := by
  have hrest : ∀ p ∈ numbered "line".toList d.line ++
      numbered "col".toList (d.line.bind fun _ => d.column), Q p.2 := by
    intro p hp
    obtain ⟨k, rfl⟩ | ⟨k, rfl⟩ :=
      (List.mem_append.mp hp).imp exists_of_mem_numbered exists_of_mem_numbered <;> exact hnumber k
  rw [toldOf, List.forall_mem_cons, List.forall_mem_cons, and_iff_left hrest]

theorem regular_toldOf (d : Diagnostic) : (toldOf d).Regular where
  level := by
    show ' ' ∉ (workflowLevel d.severity).toList ∧ ':' ∉ (workflowLevel d.severity).toList ∧
      '\n' ∉ (workflowLevel d.severity).toList
    cases d.severity <;> decide
  names := by
    have hnames : ∀ name ∈ ["file".toList, "title".toList, "line".toList, "col".toList],
        ',' ∉ name ∧ '=' ∉ name ∧ ':' ∉ name ∧ '\n' ∉ name := by decide
    intro p hp
    refine hnames p.1 ?_
    rw [toldOf, List.mem_cons, List.mem_cons, List.mem_append] at hp
    obtain rfl | rfl | hp | hp := hp
    · exact List.mem_cons_self
    · exact List.mem_cons_of_mem _ List.mem_cons_self
    · obtain ⟨k, rfl⟩ := exists_of_mem_numbered hp
      exact List.mem_cons_of_mem _ (List.mem_cons_of_mem _ List.mem_cons_self)
    · obtain ⟨k, rfl⟩ := exists_of_mem_numbered hp
      exact List.mem_of_getLast? rfl
  properties := List.cons_ne_nil _ _

/-- Only without a line may the last value end in a colon. -/
theorem exists_getLast?_toldOf_iff (d : Diagnostic) :
    (∃ p ∈ (toldOf d).properties.getLast?, p.2.getLast? = some ':') ↔
      d.line = none ∧ d.checkId.toList.getLast? = some ':' := by
  rcases hline : d.line with _ | line
  · simp [toldOf, numbered, hline]
  · rcases hcolumn : d.column with _ | column
    · simpa [toldOf, numbered, hline, hcolumn] using getLast?_number_ne line
    · simpa [toldOf, numbered, hline, hcolumn] using getLast?_number_ne column

theorem isPlain_iff (d : Diagnostic) :
    IsPlain d ↔ '\n' ∉ (toldOf d).written ∧ untold d = [] ∧ (toldOf d).Plain := by
  have huntold : untold d = [] ↔ (d.line = none → d.column = none) := by
    rcases hline : d.line with _ | line <;> rcases hcolumn : d.column with _ | column <;>
      simp [untold, numbered, hline, hcolumn]
  have hhead := WorkflowCommand.colons_infix_head_iff (regular_toldOf d)
  rw [exists_getLast?_toldOf_iff] at hhead
  have hcolons := forall_mem_toldOf (Q := fun v => ¬ colons <:+: v)
    (fun n => (plainValue_number n).head) d
  have hvalues := forall_mem_toldOf
    (Q := fun v => ',' ∉ v ∧ ∀ code ∈ valueCodes, ¬ code.1 <:+: v)
    (fun n => ⟨(plainValue_number n).property, (plainValue_number n).codes⟩) d
  have hnewlines := forall_mem_toldOf (Q := fun v => '\n' ∉ v)
    (fun n => (plainValue_number n).line) d
  rw [WorkflowCommand.newline_notMem_written_iff (regular_toldOf d), hnewlines, huntold]
  constructor
  · intro h
    have hplain := hvalues.mpr
      ⟨⟨h.path.property, h.path.codes⟩, h.title.property, h.title.codes⟩
    refine ⟨⟨⟨h.path.line, h.title.line⟩, h.message.1⟩, h.column, hplain, fun hinfix => ?_,
      h.message.2⟩
    obtain ⟨p, hp, hpair⟩ | ⟨hline, hend⟩ := hhead.mp hinfix
    · exact hcolons.mpr ⟨h.path.head, h.title.head⟩ p hp hpair
    · exact h.title_end hline hend
  · rintro ⟨⟨⟨hpath, htitle⟩, hmessage⟩, hcolumn, hplain⟩
    obtain ⟨hpathhead, htitlehead⟩ := hcolons.mp fun p hp hpair =>
      hplain.head (hhead.mpr (.inl ⟨p, hp, hpair⟩))
    obtain ⟨⟨hpathcomma, hpathcodes⟩, htitlecomma, htitlecodes⟩ := hvalues.mp hplain.values
    exact {
      path := ⟨hpath, hpathcomma, hpathhead, hpathcodes⟩
      title := ⟨htitle, htitlecomma, htitlehead, htitlecodes⟩
      title_end := fun hline hend => hplain.head (hhead.mpr (.inr ⟨hline, hend⟩))
      message := ⟨hmessage, hplain.message⟩
      column := hcolumn }

/-! ## Reports -/

/-- The lines of a report, each with its line feed behind it, as they are read. -/
def readCommands (t : Text) : List (Option WorkflowCommand) :=
  (splitLines t).dropLast.map WorkflowCommand.read?

theorem toList_workflow (v : View) (r : Report) : (workflow v r).toList =
    ((v.shown r).map fun d => (toldOf d).written).flatMap fun row => row ++ ['\n'] := by
  rw [workflow, String.toList_join, List.flatMap_map, List.flatMap_map]
  exact congrArg (List.flatMap · _) (funext toList_workflowCommand)

theorem count_newline_flatMap_cons (row : Text) (rows : List Text) :
    ((row :: rows).flatMap fun row => row ++ ['\n']).count '\n' =
      row.count '\n' + 1 + (rows.flatMap fun row => row ++ ['\n']).count '\n' := by
  rw [List.flatMap_cons, List.count_append, List.count_append, List.count_singleton_self]

theorem length_le_count_newline (rows : List Text) :
    rows.length ≤ (rows.flatMap fun row => row ++ ['\n']).count '\n' := by
  induction rows with
  | nil => exact Nat.le_refl _
  | cons row rows ih =>
    rw [count_newline_flatMap_cons, List.length_cons]
    omega

/-- There are no more line feeds than rows only if there is none inside them. -/
theorem notMem_of_count_newline {rows : List Text}
    (h : (rows.flatMap fun row => row ++ ['\n']).count '\n' = rows.length) :
    ∀ row ∈ rows, '\n' ∉ row := by
  induction rows with
  | nil => exact List.forall_mem_nil _
  | cons row rows ih =>
    have hle := length_le_count_newline rows
    rw [count_newline_flatMap_cons, List.length_cons] at h
    exact List.forall_mem_cons.mpr ⟨List.count_eq_zero.mp (by omega), ih (by omega)⟩

/-- The command for a diagnostic tells all there is to tell only if there is nothing that is not
told and it is plain. -/
theorem read?_written_toldOf_iff (d : Diagnostic) :
    WorkflowCommand.read? (toldOf d).written = some (commandOf d) ↔
      untold d = [] ∧ (toldOf d).Plain := by
  rw [commandOf_eq, WorkflowCommand.read?_written_iff (regular_toldOf d)]

/-- Without line feeds inside the rows, the lines are the rows. -/
theorem readCommands_of_notMem {v : View} {r : Report}
    (h : ∀ d ∈ v.shown r, '\n' ∉ (toldOf d).written) :
    readCommands (workflow v r).toList =
      (v.shown r).map fun d => WorkflowCommand.read? (toldOf d).written := by
  rw [readCommands, toList_workflow, splitLines_flatMap_append (List.forall_mem_map.mpr h),
    List.dropLast_concat, List.map_map]
  rfl

/-- **Plain diagnostics are read as what they are.** -/
theorem readCommands_workflow {v : View} {r : Report} (h : ∀ d ∈ v.shown r, IsPlain d) :
    readCommands (workflow v r).toList = (v.shown r).map fun d => some (commandOf d) := by
  rw [readCommands_of_notMem fun d hd => ((isPlain_iff d).mp (h d hd)).1]
  exact List.map_congr_left fun d hd =>
    (read?_written_toldOf_iff d).mpr ((isPlain_iff d).mp (h d hd)).2

/-- **A report reads back exactly if the diagnostics that are shown are plain.**  Then each line is
one command, and its level, properties and message are those of the diagnostic. -/
theorem readCommands_workflow_iff (v : View) (r : Report) :
    readCommands (workflow v r).toList = (v.shown r).map (fun d => some (commandOf d)) ↔
      ∀ d ∈ v.shown r, IsPlain d := by
  refine ⟨fun h => ?_, readCommands_workflow⟩
  have hrows : ∀ d ∈ v.shown r, '\n' ∉ (toldOf d).written := by
    have hlen := congrArg List.length h
    rw [toList_workflow, readCommands, List.length_map, List.length_dropLast, List.length_map,
      splitLines, length_splitOn, Nat.add_sub_cancel] at hlen
    intro d hd
    refine notMem_of_count_newline ?_ _ (List.mem_map_of_mem (f := fun d => (toldOf d).written) hd)
    rw [hlen, List.length_map]
  rw [readCommands_of_notMem hrows, List.map_inj_left] at h
  intro d hd
  exact (isPlain_iff d).mpr ⟨hrows d hd, (read?_written_toldOf_iff d).mp (h d hd)⟩

/-- A broken stylesheet with a comma in its name. -/
def commaReport : Report :=
  (Report.empty default).add
    { checkId := "unbalanced_braces"
      severity := .error
      path := ⟨"a,b.css".toList⟩
      message := "CSS syntax error: Unbalanced braces (1 \x7b vs 0 \x7d)"
      detectedAt := default }

/-- Not every report reads back. -/
theorem exists_command_misread :
    ¬ ∀ (v : View) (r : Report),
      readCommands (workflow v r).toList = (v.shown r).map fun d => some (commandOf d) := by
  intro hall
  have h := hall default commaReport
  revert h
  decide +kernel

end StyleAudit.Report
