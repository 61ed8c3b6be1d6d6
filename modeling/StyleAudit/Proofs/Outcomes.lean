import Mathlib.Data.List.Basic

/-!
# Asking a question of every item of a list

A question that can fail is asked of the items of a list one after the other, and the first
failure ends it.  So all of it succeeds exactly if the question succeeds for every item, whether
only the successes count (`eq_ok_of_forM_eq_ok`), the answers are collected (`exists_mapM_iff`) or
the items are kept or dropped by their answers (`filterM_eq_ok_iff`).  A loop that files what it
finds fails like the first item that does (`foldlM_eq_foldl`).
-/

namespace StyleAudit.Outcomes

variable {ε α β : Type}

/-- Two steps succeed when the first does, and the second on what the first found. -/
theorem bind_eq_ok_iff {x : Except ε α} {f : α → Except ε β} {b : β} :
    (x >>= f) = .ok b ↔ ∃ a, x = .ok a ∧ f a = .ok b := by
  cases x with
  | error e =>
    refine ⟨nofun, ?_⟩
    rintro ⟨_, h, -⟩
    cases h
  | ok a =>
    refine ⟨fun h => ⟨a, rfl, h⟩, ?_⟩
    rintro ⟨_, h, hf⟩
    cases h
    exact hf

theorem map_eq_ok_iff {x : Except ε α} {f : α → β} {b : β} :
    x.map f = .ok b ↔ ∃ a, x = .ok a ∧ f a = b := by
  cases x with
  | error e =>
    refine ⟨nofun, ?_⟩
    rintro ⟨_, h, -⟩
    cases h
  | ok a =>
    refine ⟨fun h => ⟨a, rfl, Except.ok.inj h⟩, ?_⟩
    rintro ⟨_, h, rfl⟩
    cases h
    rfl

/-- Telling a failure in other words makes no success of it. -/
theorem mapError_eq_ok_iff {ε' : Type} {g : ε → ε'} {x : Except ε α} {a : α} :
    x.mapError g = .ok a ↔ x = .ok a := by
  cases x with
  | error e => exact ⟨nofun, nofun⟩
  | ok b => exact ⟨fun h => congrArg Except.ok (Except.ok.inj h), fun h => by rw [h]; rfl⟩

/-- Every test of a run that passes has passed. -/
theorem eq_ok_of_forM_eq_ok {f : α → Except ε Unit} {l : List α} (h : l.forM f = .ok ()) :
    ∀ a ∈ l, f a = .ok () := by
  induction l with
  | nil => exact fun a ha => absurd ha List.not_mem_nil
  | cons a l ih =>
    obtain ⟨⟨⟩, ha, hl⟩ := bind_eq_ok_iff.mp h
    exact List.forall_mem_cons.mpr ⟨ha, ih hl⟩

/-! ## Answers that are collected -/

/-- Answers are collected exactly if there is one for every item. -/
theorem exists_mapM_iff {f : α → Except ε β} {l : List α} :
    (∃ bs, l.mapM f = .ok bs) ↔ ∀ a ∈ l, ∃ b, f a = .ok b := by
  induction l with
  | nil => exact ⟨fun _ a ha => absurd ha List.not_mem_nil, fun _ => ⟨[], rfl⟩⟩
  | cons a l ih =>
    rw [List.mapM_cons, List.forall_mem_cons, ← ih]
    constructor
    · rintro ⟨bs, h⟩
      obtain ⟨b, hb, h⟩ := bind_eq_ok_iff.mp h
      obtain ⟨cs, hcs, -⟩ := bind_eq_ok_iff.mp h
      exact ⟨⟨b, hb⟩, ⟨cs, hcs⟩⟩
    · rintro ⟨⟨b, hb⟩, ⟨bs, hbs⟩⟩
      rw [hb, hbs]
      exact ⟨b :: bs, rfl⟩

/-- The first item without an answer ends it. -/
theorem mapM_append_cons_eq_error {f : α → Except ε β} {before : List α} {a : α} {e : ε}
    (hbefore : ∀ b ∈ before, ∃ c, f b = .ok c) (ha : f a = .error e) (after : List α) :
    (before ++ a :: after).mapM f = .error e := by
  obtain ⟨cs, hcs⟩ := exists_mapM_iff.mpr hbefore
  rw [List.mapM_append, hcs, List.mapM_cons, ha]
  rfl

/-- The answers that are collected are those for the items, in their order. -/
theorem mapM_eq_ok_iff {f : α → Except ε β} {l : List α} :
    ∀ {bs : List β}, l.mapM f = .ok bs ↔ l.map f = bs.map .ok := by
  induction l with
  | nil =>
    intro bs
    rw [List.map_nil, eq_comm (a := []), List.map_eq_nil_iff]
    refine ⟨fun h => (Except.ok.inj h).symm, ?_⟩
    rintro rfl
    rfl
  | cons a l ih =>
    intro bs
    rw [List.mapM_cons, bind_eq_ok_iff, List.map_cons]
    simp only [bind_eq_ok_iff, ih]
    constructor
    · rintro ⟨b, hb, cs, hcs, h⟩
      obtain rfl := Except.ok.inj h
      rw [hb, hcs, List.map_cons]
    · intro h
      cases bs with
      | nil => cases h
      | cons b cs =>
        obtain ⟨hb, hcs⟩ := List.cons.inj h
        exact ⟨b, hb, cs, hcs, rfl⟩

/-! ## Items that are kept or dropped -/

/-- Whether the answer for an item is there and is yes. -/
def isYes (outcome : Except ε Bool) : Bool :=
  match outcome with
  | .ok b => b
  | .error _ => false

theorem isYes_iff {outcome : Except ε Bool} : isYes outcome = true ↔ outcome = .ok true := by
  cases outcome with
  | error e => exact ⟨nofun, nofun⟩
  | ok b => cases b <;> simp [isYes]

theorem filterAuxM_eq_ok_iff {f : α → Except ε Bool} {l kept : List α} :
    ∀ {acc : List α}, l.filterAuxM f acc = .ok kept ↔
      (∀ a ∈ l, ∃ b, f a = .ok b) ∧ kept = (l.filter fun a => isYes (f a)).reverse ++ acc := by
  induction l with
  | nil =>
    intro acc
    constructor
    · intro h
      cases h
      exact ⟨fun a ha => absurd ha List.not_mem_nil, rfl⟩
    · rintro ⟨-, rfl⟩
      rfl
  | cons a l ih =>
    intro acc
    change (f a >>= fun b => l.filterAuxM f (cond b (a :: acc) acc)) = .ok kept ↔ _
    rw [bind_eq_ok_iff, List.forall_mem_cons, List.filter_cons, and_assoc]
    simp only [ih]
    constructor
    · rintro ⟨b, hb, hrest, rfl⟩
      refine ⟨⟨b, hb⟩, hrest, ?_⟩
      cases b <;> simp [hb, isYes]
    · rintro ⟨⟨b, hb⟩, hrest, rfl⟩
      refine ⟨b, hb, hrest, ?_⟩
      cases b <;> simp [hb, isYes]

theorem filterAuxM_congr {f g : α → Except ε Bool} {l : List α} (h : ∀ a ∈ l, f a = g a) :
    ∀ acc : List α, l.filterAuxM f acc = l.filterAuxM g acc := by
  induction l with
  | nil => exact fun _ => rfl
  | cons a l ih =>
    obtain ⟨ha, hl⟩ := List.forall_mem_cons.mp h
    intro acc
    rw [List.filterAuxM, List.filterAuxM, ha]
    simp only [ih hl]

/-- Two questions that have the same answers keep the same items. -/
theorem filterM_congr {f g : α → Except ε Bool} {l : List α} (h : ∀ a ∈ l, f a = g a) :
    l.filterM f = l.filterM g := by
  rw [List.filterM, List.filterM, filterAuxM_congr h]

/-- **Items are kept or dropped exactly if there is an answer for every item**, and those are kept
whose answer is yes. -/
theorem filterM_eq_ok_iff {f : α → Except ε Bool} {l kept : List α} :
    l.filterM f = .ok kept ↔
      (∀ a ∈ l, ∃ b, f a = .ok b) ∧ kept = l.filter fun a => isYes (f a) := by
  rw [List.filterM, bind_eq_ok_iff]
  simp only [filterAuxM_eq_ok_iff, List.append_nil]
  constructor
  · rintro ⟨_, ⟨hall, rfl⟩, h⟩
    rw [List.reverse_reverse] at h
    exact ⟨hall, (Except.ok.inj h).symm⟩
  · rintro ⟨hall, rfl⟩
    exact ⟨_, ⟨hall, rfl⟩, by rw [List.reverse_reverse]; rfl⟩

/-! ## Whether there is an answer, whatever the failure -/

theorem eq_ok_of_toOption {x : Except ε α} {a : α} (h : x.toOption = some a) : x = .ok a := by
  cases x with
  | error e => cases h
  | ok b => rw [Option.some.inj h]

theorem toOption_bind (x : Except ε α) (f : α → Except ε β) :
    (x >>= f).toOption = x.toOption.bind fun a => (f a).toOption := by
  cases x with
  | error e => rfl
  | ok a => rfl

/-- Two loops come to the same if their steps do, whatever the failures. -/
theorem toOption_foldlM_map {f g : β → α → Except ε β} {h : α → α} {l : List α}
    (hstep : ∀ b, ∀ a ∈ l, (f b (h a)).toOption = (g b a).toOption) :
    ∀ b, ((l.map h).foldlM f b).toOption = (l.foldlM g b).toOption := by
  induction l with
  | nil => exact fun _ => rfl
  | cons a l ih =>
    intro b
    rw [List.map_cons, List.foldlM_cons, List.foldlM_cons, toOption_bind, toOption_bind,
      hstep b a List.mem_cons_self]
    have hrest := ih fun c d hd => hstep c d (List.mem_cons_of_mem _ hd)
    simp only [hrest]

/-- A loop comes to nothing if one of its steps always does. -/
theorem toOption_foldlM_eq_none {f : β → α → Except ε β} {l : List α} {a : α} (ha : a ∈ l)
    (h : ∀ b, (f b a).toOption = none) : ∀ b, (l.foldlM f b).toOption = none := by
  obtain ⟨before, after, rfl⟩ := List.append_of_mem ha
  intro b
  rw [List.foldlM_append, toOption_bind]
  cases (before.foldlM f b).toOption with
  | none => rfl
  | some c =>
    show ((a :: after).foldlM f c).toOption = none
    rw [List.foldlM_cons, toOption_bind, h]
    rfl

/-! ## Loops whose steps fail by their items alone -/

/-- **A loop fails like the first item that fails**, if it depends on the item alone whether a step
does; and if no item fails it is the plain loop. -/
theorem foldlM_eq_foldl {f : β → α → Except ε β} {fails? : α → Option ε} {next : β → α → β}
    (hstep : ∀ b a, f b a = (fails? a).elim (.ok (next b a)) .error) (l : List α) (b : β) :
    l.foldlM f b = (l.findSome? fails?).elim (.ok (l.foldl next b)) .error := by
  induction l generalizing b with
  | nil => rfl
  | cons a l ih =>
    rw [List.foldlM_cons, List.findSome?_cons, hstep]
    cases fails? a with
    | some e => rfl
    | none => exact ih _

end StyleAudit.Outcomes
