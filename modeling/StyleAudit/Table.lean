import Std.Data.TreeMap
import StyleAudit.Text.Basic

/-!
# Tables

What is found in a stylesheet is filed under selectors, conditions and names.  A `Table` is
a map whose keys are texts, in the order of their characters' codes, which is also the order
of their UTF-8 bytes and the order in which answers list them.
-/

namespace StyleAudit

/-- A map from texts, ordered by the codes of their characters. -/
abbrev Table (β : Type) := Std.TreeMap Text β

namespace Table

/-- Files one more entry under a key, behind those already there. -/
def append {β : Type} (table : Table (List β)) (key : Text) (entries : List β) :
    Table (List β) :=
  table.alter key fun old => some (old.getD [] ++ entries)

theorem getD_append {β : Type} (table : Table (List β)) (key other : Text) (entries : List β) :
    (table.append key entries).getD other [] =
      if key = other then table.getD other [] ++ entries else table.getD other [] := by
  simp only [append, Std.TreeMap.getD_eq_getD_getElem?, Std.TreeMap.getElem?_alter,
    Std.LawfulEqCmp.compare_eq_iff_eq]
  by_cases h : key = other
  · simp [h]
  · simp [h]

/-- The values of a map are those of its entries, in the order of the keys. -/
theorem values_eq_map_snd_toList {α β : Type} {cmp : α → α → Ordering} (t : Std.TreeMap α β cmp) :
    t.values = t.toList.map Prod.snd := by
  have hfoldr : t.values = t.foldr (fun _ b bs => b :: bs) [] := rfl
  rw [hfoldr, Std.TreeMap.foldr_eq_foldr_toList]
  exact List.map_eq_foldr.symm

end Table
end StyleAudit
