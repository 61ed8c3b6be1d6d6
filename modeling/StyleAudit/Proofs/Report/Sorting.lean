import StyleAudit.Report

/-!
# What sorting a report depends on

Diagnostics are sorted by file, line and severity (`Diagnostic.cmp`).  Many diagnostics are not
told apart by that, and those stay as they came, so the sorted list does not depend on the set
of diagnostics alone.  It depends on this much: for every diagnostic, the list of those that are
tied with it, as they came (`mergeSort_congr`).

The argument works for every order.  A stable sort keeps each list of ties
(`filter_tied_mergeSort`), because it keeps every sublist that is in order, and a list of ties
is.  And a list that is in order is known from its lists of ties
(`eq_of_pairwise_of_filter_tied`): its head is the first of those tied with it.

* `Path.cmp_eq_iff` --- paths are told apart exactly if they have different parts;
* `parts_eq_of_tied` --- tied diagnostics are about one file.
-/

namespace StyleAudit

/-! ## Ties -/

section Ties

variable {α : Type} {cmp : α → α → Ordering}

/-- Whether the order does not tell two things apart. -/
def tied (cmp : α → α → Ordering) (a b : α) : Bool := cmp a b == .eq

variable [Std.TransCmp cmp]

theorem tied_self (a : α) : tied cmp a a = true := beq_iff_eq.mpr Std.ReflCmp.compare_self

/-- Things tied with one thing are in order, however they stand. -/
theorem isLE_of_tied {k a b : α} (ha : tied cmp k a = true) (hb : tied cmp k b = true) :
    (cmp a b).isLE = true := by
  have hak : cmp a k = .eq := Std.OrientedCmp.eq_symm (beq_iff_eq.mp ha)
  have hab : cmp a b = .eq := Std.TransCmp.eq_trans hak (beq_iff_eq.mp hb)
  rw [hab]
  rfl

theorem isLE_total (a b : α) : ((cmp a b).isLE || (cmp b a).isLE) = true := by
  have hge : (cmp a b).isGE = true ↔ (cmp b a).isLE = true := Std.OrientedCmp.isGE_iff_isLE
  rw [Bool.or_eq_true, ← hge]
  cases cmp a b <;> decide

/-- **Sorting keeps what is tied as it came.** -/
theorem filter_tied_mergeSort (k : α) (l : List α) :
    (l.mergeSort fun a b => (cmp a b).isLE).filter (tied cmp k) = l.filter (tied cmp k) := by
  have hordered : (l.filter (tied cmp k)).Pairwise fun a b => (cmp a b).isLE = true :=
    List.pairwise_of_forall_mem_list fun a ha b hb =>
      isLE_of_tied (List.mem_filter.mp ha).2 (List.mem_filter.mp hb).2
  have hsublist : (l.filter (tied cmp k)).Sublist (l.mergeSort fun a b => (cmp a b).isLE) :=
    List.sublist_mergeSort (fun _ _ _ => Std.TransCmp.isLE_trans) isLE_total hordered
      List.filter_sublist
  have hkept : (l.filter (tied cmp k)).Sublist
      ((l.mergeSort fun a b => (cmp a b).isLE).filter (tied cmp k)) := by
    simpa only [List.filter_filter, Bool.and_self] using hsublist.filter (tied cmp k)
  have hlength := ((List.mergeSort_perm l fun a b => (cmp a b).isLE).filter (tied cmp k)).length_eq
  exact (hkept.eq_of_length hlength.symm).symm

/-- A list that is in order is known from what is tied with each thing. -/
theorem eq_of_pairwise_of_filter_tied :
    ∀ {l m : List α}, (l.Pairwise fun a b => (cmp a b).isLE = true) →
      (m.Pairwise fun a b => (cmp a b).isLE = true) →
      (∀ k, l.filter (tied cmp k) = m.filter (tied cmp k)) → l = m
  | [], [], _, _, _ => rfl
  | [], b :: m, _, _, h => by
    have hb := h b
    rw [List.filter_cons_of_pos (tied_self b)] at hb
    cases hb
  | a :: l, [], _, _, h => by
    have ha := h a
    rw [List.filter_cons_of_pos (tied_self a)] at ha
    cases ha
  | a :: l, b :: m, hl, hm, h => by
    have hmem : a ∈ b :: m := by
      have ha : a ∈ (a :: l).filter (tied cmp a) :=
        List.mem_filter.mpr ⟨List.mem_cons_self, tied_self a⟩
      rw [h a] at ha
      exact (List.mem_filter.mp ha).1
    have hmem' : b ∈ a :: l := by
      have hb : b ∈ (b :: m).filter (tied cmp b) :=
        List.mem_filter.mpr ⟨List.mem_cons_self, tied_self b⟩
      rw [← h b] at hb
      exact (List.mem_filter.mp hb).1
    -- Each head is in order before everything in its own list, so before the other head.
    have hab : tied cmp a b = true := by
      refine beq_iff_eq.mpr (Std.OrientedCmp.isLE_antisymm ?_ ?_)
      · rcases List.mem_cons.mp hmem' with rfl | hmem'
        · exact isLE_of_tied (tied_self b) (tied_self b)
        · exact List.rel_of_pairwise_cons hl hmem'
      · rcases List.mem_cons.mp hmem with rfl | hmem
        · exact isLE_of_tied (tied_self a) (tied_self a)
        · exact List.rel_of_pairwise_cons hm hmem
    have hhead := h a
    rw [List.filter_cons_of_pos (tied_self a), List.filter_cons_of_pos hab] at hhead
    obtain ⟨rfl, -⟩ := List.cons.inj hhead
    refine congrArg (a :: ·) (eq_of_pairwise_of_filter_tied hl.of_cons hm.of_cons fun k => ?_)
    have hk := h k
    by_cases hka : tied cmp k a = true
    · rw [List.filter_cons_of_pos hka, List.filter_cons_of_pos hka] at hk
      exact List.tail_eq_of_cons_eq hk
    · rwa [List.filter_cons_of_neg hka, List.filter_cons_of_neg hka] at hk

/-- **Sorting depends only on the lists of ties.** -/
theorem mergeSort_congr {l m : List α} (h : ∀ k, l.filter (tied cmp k) = m.filter (tied cmp k)) :
    (l.mergeSort fun a b => (cmp a b).isLE) = m.mergeSort fun a b => (cmp a b).isLE := by
  have hsorted : ∀ n : List α,
      (n.mergeSort fun a b => (cmp a b).isLE).Pairwise fun a b => (cmp a b).isLE = true :=
    List.pairwise_mergeSort (fun _ _ _ => Std.TransCmp.isLE_trans) isLE_total
  refine eq_of_pairwise_of_filter_tied (hsorted l) (hsorted m) fun k => ?_
  rw [filter_tied_mergeSort, filter_tied_mergeSort, h k]

end Ties

/-! ## The order of diagnostics -/

namespace Path

instance : Std.TransOrd Part := inferInstanceAs (Std.TransCmp (compareOn Part.code))

instance : Std.LawfulEqOrd Part where
  compare_self := Std.ReflCmp.compare_self (α := Part)
  eq_of_compare h := Part.code_injective (Std.LawfulEqOrd.eq_of_compare h)

/-- Paths are told apart exactly if they have different parts. -/
theorem cmp_eq_iff {p q : Path} : p.cmp q = .eq ↔ p.parts = q.parts := by
  rw [cmp, Std.LawfulEqCmp.compare_eq_iff_eq]

end Path

namespace Diagnostic

instance : Std.TransCmp cmp :=
  inferInstanceAs (Std.TransCmp (compareLex
    (compareLex (compareOn fun d : Diagnostic => d.path.parts)
      (compareOn fun d : Diagnostic => d.line.getD 0))
    fun a b => compareOn (fun d : Diagnostic => d.severity.rank) b a))

/-- Diagnostics that are tied are about one file. -/
theorem parts_eq_of_tied {a b : Diagnostic} (h : tied cmp a b = true) :
    a.path.parts = b.path.parts := by
  have heq : a.cmp b = .eq := beq_iff_eq.mp h
  rw [cmp, Ordering.then_eq_eq, Ordering.then_eq_eq] at heq
  exact Path.cmp_eq_iff.mp heq.1.1

end Diagnostic
end StyleAudit
