import StyleAudit.Proofs.Text.Encoding
import StyleAudit.Settings.Fingerprint

/-!
# The bytes behind a fingerprint tell all of a configuration

A fingerprint is a hash of `Config.encode`, and two configurations can only share a fingerprint
by accident if they do not share these bytes.  That they do not, unless they agree, is not plain:
the fields are written one behind the other with nothing in between, and the checks do not even
have their number in front.

What keeps the fields apart is that each of them tells where it ends (`SelfDelimiting`): whatever
stands behind the bytes of a value, the value can be read off them and what stands behind them is
known.

* A text ends with the byte `255`, and none of its own bytes is that one
  (`selfDelimiting_encodeText`).
* A number has eight bytes, which tell it if it is less than `UInt64.size`
  (`encodeNat_append_inj`).
* A list whose length is known tells its items if each of them delimits itself
  (`flatMap_append_inj`).  A list at the very end does so without its length, for no item is
  written as nothing (`SelfDelimiting.flatMap_inj`).

Read in this order the fields fall off the front one by one (`agree_of_encode_eq`), which gives
the main result, `encode_eq_iff`.
-/

namespace StyleAudit.Config

/-! ## Values that tell where they end -/

section SelfDelimiting

variable {α : Type}

/-- A way of writing values that tells where a value ends, whatever stands behind it. -/
def SelfDelimiting (write : α → List UInt8) : Prop :=
  ∀ ⦃a b : α⦄ ⦃s t : List UInt8⦄, write a ++ s = write b ++ t → a = b ∧ s = t

variable {write : α → List UInt8}

/-- Items that delimit themselves are known if their number is. -/
theorem flatMap_append_inj (h : SelfDelimiting write) :
    ∀ {as bs : List α} {s t : List UInt8}, as.length = bs.length →
      as.flatMap write ++ s = bs.flatMap write ++ t → as = bs ∧ s = t
  | [], [], _, _, _, heq => ⟨rfl, heq⟩
  | [], _ :: _, _, _, hlen, _ => absurd hlen (by simp)
  | _ :: _, [], _, _, hlen, _ => absurd hlen (by simp)
  | a :: as, b :: bs, s, t, hlen, heq => by
    rw [List.flatMap_cons, List.flatMap_cons, List.append_assoc, List.append_assoc] at heq
    obtain ⟨rfl, hrest⟩ := h heq
    obtain ⟨rfl, hst⟩ := flatMap_append_inj h (Nat.succ.inj hlen) hrest
    exact ⟨rfl, hst⟩

/-- Items that delimit themselves are known, and so is their number, if nothing stands behind
the last. -/
theorem SelfDelimiting.flatMap_inj (h : SelfDelimiting write) (hne : ∀ a, write a ≠ []) :
    ∀ {as bs : List α}, as.flatMap write = bs.flatMap write → as = bs
  | [], [], _ => rfl
  | [], b :: bs, heq => by
    rw [List.flatMap_nil, List.flatMap_cons, eq_comm, List.append_eq_nil_iff] at heq
    exact absurd heq.1 (hne b)
  | a :: as, [], heq => by
    rw [List.flatMap_nil, List.flatMap_cons, List.append_eq_nil_iff] at heq
    exact absurd heq.1 (hne a)
  | a :: as, b :: bs, heq => by
    rw [List.flatMap_cons, List.flatMap_cons] at heq
    obtain ⟨rfl, hrest⟩ := h heq
    rw [h.flatMap_inj hne hrest]

end SelfDelimiting

/-! ## The parts of a configuration -/

/-- Where a byte occurs for the first time is known from the bytes. -/
theorem append_cons_inj_of_notMem {x : UInt8} :
    ∀ {as bs s t : List UInt8}, x ∉ as → x ∉ bs → as ++ x :: s = bs ++ x :: t → as = bs ∧ s = t
  | [], [], _, _, _, _, h => ⟨rfl, List.tail_eq_of_cons_eq h⟩
  | [], b :: _, _, _, _, hb, h => by
    have hhead : x = b := List.head_eq_of_cons_eq h
    exact absurd (hhead ▸ List.mem_cons_self) hb
  | a :: _, [], _, _, ha, _, h => by
    have hhead : a = x := List.head_eq_of_cons_eq h
    exact absurd (hhead ▸ List.mem_cons_self) ha
  | a :: as, b :: bs, _, _, ha, hb, h => by
    obtain ⟨rfl, hrest⟩ := List.cons.inj h
    obtain ⟨rfl, hst⟩ := append_cons_inj_of_notMem (fun hx => ha (List.mem_cons_of_mem _ hx))
      (fun hx => hb (List.mem_cons_of_mem _ hx)) hrest
    exact ⟨rfl, hst⟩

theorem selfDelimiting_encodeText : SelfDelimiting encodeText := by
  intro t u r s h
  rw [encodeText, encodeText, List.append_assoc, List.append_assoc, List.singleton_append,
    List.singleton_append] at h
  obtain ⟨hbytes, hrest⟩ :=
    append_cons_inj_of_notMem (Utf8.notMem_encode t) (Utf8.notMem_encode u) h
  exact ⟨Utf8.encode_inj hbytes, hrest⟩

/-- The number that bytes make, least significant first. -/
def numberOf (bytes : List UInt8) : Nat := bytes.foldr (fun b n => b.toNat + 256 * n) 0

/-- A number that fits into eight bytes is read back from them. -/
theorem numberOf_encodeNat {n : Nat} (h : n < UInt64.size) : numberOf (encodeNat n) = n := by
  have hlt : n < 18446744073709551616 := h
  simp only [numberOf, encodeNat, List.range, List.range.loop, List.map_cons, List.map_nil,
    List.foldr_cons, List.foldr_nil, UInt8.toNat_ofNat', Nat.shiftRight_eq_div_pow]
  omega

/-- Eight bytes tell a number that fits into them. -/
theorem encodeNat_append_inj {m n : Nat} {s t : List UInt8} (hm : m < UInt64.size)
    (hn : n < UInt64.size) (h : encodeNat m ++ s = encodeNat n ++ t) : m = n ∧ s = t := by
  have hlength : ∀ k, (encodeNat k).length = 8 := fun k => by
    rw [encodeNat, List.length_map, List.length_range]
  obtain ⟨hbytes, hrest⟩ := List.append_inj h (by rw [hlength, hlength])
  refine ⟨?_, hrest⟩
  rw [← numberOf_encodeNat hm, hbytes, numberOf_encodeNat hn]

theorem rank_lt (s : Severity) : s.rank < UInt64.size := by
  cases s <;> decide

/-- Texts in a list that is short enough are known, and so is what stands behind it. -/
theorem encodeTexts_append_inj {ts us : List Text} {r s : List UInt8}
    (hts : ts.length < UInt64.size) (hus : us.length < UInt64.size)
    (h : encodeTexts ts ++ r = encodeTexts us ++ s) : ts = us ∧ r = s := by
  rw [encodeTexts, encodeTexts, List.append_assoc, List.append_assoc] at h
  obtain ⟨hlength, hrest⟩ := encodeNat_append_inj hts hus h
  exact flatMap_append_inj selfDelimiting_encodeText hlength hrest

theorem selfDelimiting_encodeOption : SelfDelimiting encodeOption
  | none, none, _, _, h => ⟨rfl, (List.append_cancel_left_eq ..).mp h⟩
  | none, some u, _, _, h => by
    rw [encodeOption, encodeOption, List.append_assoc] at h
    exact absurd (encodeNat_append_inj (by decide) (by decide) h).1 (by decide)
  | some t, none, _, _, h => by
    rw [encodeOption, encodeOption, List.append_assoc] at h
    exact absurd (encodeNat_append_inj (by decide) (by decide) h).1 (by decide)
  | some t, some u, _, _, h => by
    rw [encodeOption, encodeOption, List.append_assoc, List.append_assoc] at h
    obtain ⟨rfl, hrest⟩ := selfDelimiting_encodeText (encodeNat_append_inj (by decide)
      (by decide) h).2
    exact ⟨rfl, hrest⟩

/-- A check delimits itself together with its name. -/
theorem selfDelimiting_encodeCheck :
    SelfDelimiting fun check : Text × CheckRule => encodeCheck check.1 check.2 := by
  rintro ⟨id, rule⟩ ⟨id', rule'⟩ s t h
  simp only [encodeCheck, List.append_assoc] at h
  obtain ⟨rfl, h⟩ := selfDelimiting_encodeText h
  obtain ⟨hdescription, h⟩ := selfDelimiting_encodeText h
  obtain ⟨hrank, h⟩ := encodeNat_append_inj (rank_lt _) (rank_lt _) h
  rw [List.singleton_append, List.singleton_append, List.cons.injEq] at h
  obtain ⟨henabled, hrest⟩ := h
  have hseverity := Severity.rank_injective hrank
  have hon : rule.enabled = rule'.enabled := by
    cases hr : rule.enabled <;> cases hr' : rule'.enabled <;> simp_all
  cases rule
  cases rule'
  cases hdescription
  cases hseverity
  cases hon
  exact ⟨rfl, hrest⟩

theorem encodeCheck_ne_nil (check : Text × CheckRule) : encodeCheck check.1 check.2 ≠ [] := by
  rw [encodeCheck]
  exact List.append_ne_nil_of_right_ne_nil _ (List.cons_ne_nil _ _)

/-! ## Whole configurations -/

/-- Two configurations say the same.  About a check they say the same also if neither of them
mentions it. -/
structure Agree (c d : Config) : Prop where
  version : c.version = d.version
  patterns : c.paths.patterns = d.paths.patterns
  ignoreFile : c.paths.ignoreFile = d.paths.ignoreFile
  extensions : c.paths.extensions = d.paths.extensions
  checks : ∀ id : Text, c.checks[id]? = d.checks[id]?

/-- The lists of the configuration are no longer than a list can be in a memory whose addresses
have eight bytes, so their lengths fit into the eight bytes that are written. -/
structure Storable (c : Config) : Prop where
  patterns : c.paths.patterns.length < UInt64.size
  extensions : c.paths.extensions.length < UInt64.size

variable {c d : Config}

/-- Checks are the same if they are listed alike. -/
theorem toList_checks_eq_iff :
    c.checks.toList = d.checks.toList ↔ ∀ id : Text, c.checks[id]? = d.checks[id]? := by
  rw [← Std.TreeMap.equiv_iff_toList_eq]
  exact ⟨fun h id => h.getElem?_eq, Std.TreeMap.Equiv.of_forall_constGet?_eq⟩

theorem Agree.encode_eq (h : Agree c d) : c.encode = d.encode := by
  rw [encode, encode, h.version, h.patterns, h.ignoreFile, h.extensions,
    toList_checks_eq_iff.mpr h.checks]

/-- The fields of a configuration fall off the front of its bytes one by one. -/
theorem agree_of_encode_eq (hc : c.Storable) (hd : d.Storable) (h : c.encode = d.encode) :
    Agree c d := by
  simp only [encode, List.append_assoc] at h
  obtain ⟨hversion, h⟩ := selfDelimiting_encodeText h
  obtain ⟨hpatterns, h⟩ := encodeTexts_append_inj hc.patterns hd.patterns h
  obtain ⟨hignoreFile, h⟩ := selfDelimiting_encodeOption h
  obtain ⟨hextensions, h⟩ := encodeTexts_append_inj hc.extensions hd.extensions h
  have hchecks : c.checks.toList = d.checks.toList :=
    selfDelimiting_encodeCheck.flatMap_inj encodeCheck_ne_nil h
  exact ⟨hversion, hpatterns, hignoreFile, hextensions, toList_checks_eq_iff.mp hchecks⟩

/-- **The bytes that a fingerprint is made of are equal exactly if the configurations agree**,
in their version, in which files they look at and in all that they say about checks. -/
theorem encode_eq_iff (hc : c.Storable) (hd : d.Storable) : c.encode = d.encode ↔ Agree c d :=
  ⟨agree_of_encode_eq hc hd, Agree.encode_eq⟩

/-- Two configurations without checks of which one has in one pattern what the other has in
two. -/
def withPatterns (patterns : List Text) : Config :=
  { version := "1.0".toList
    paths := { patterns := patterns, ignoreFile := none, extensions := ["css".toList] }
    checks := ∅ }

/-- A pattern cut in two shows in the bytes. -/
theorem encode_eq_iff_cutPattern :
    let c := withPatterns ["ab".toList]
    let d := withPatterns ["a".toList, "b".toList]
    c.Storable ∧ d.Storable ∧ (c.encode = d.encode ↔ Agree c d) ∧ c.encode ≠ d.encode := by
  intro c d
  have hc : c.Storable := ⟨by decide, by decide⟩
  have hd : d.Storable := ⟨by decide, by decide⟩
  refine ⟨hc, hd, encode_eq_iff hc hd, fun h => ?_⟩
  exact absurd ((encode_eq_iff hc hd).mp h).patterns (by decide)

end StyleAudit.Config
