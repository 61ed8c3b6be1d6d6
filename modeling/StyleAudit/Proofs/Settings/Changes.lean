import StyleAudit.Proofs.Outcomes
import StyleAudit.Proofs.Text.ByteOrder
import StyleAudit.Settings.Config

/-!
# Configurations that are built change by change

A change is about one check or about none (`Change.about?`), and all that it does to the settings
of checks is what it makes of those of that one (`Change.settle`, `getElem?_checks_change`).  So
what a run of changes leaves of the settings of a check is decided by the last change that is
about it (`getElem?_checks_foldl_append_cons`).

A change never drops a check (`mem_checks_change`), and it can add one.  The validation passes no
check that does not exist, so a configuration that was built mentions exactly the checks that do
(`mem_checks_iff_of_build`).  There the four ways to ask whether a check is on agree: its severity
has no standard settings to fall back on, and `enabledChecks` and `stats` see every check.

The main result is `isSettledBy_of_build`.
-/

namespace StyleAudit.Config

/-! ## What passed the validation -/

/-- Every name of a check and every path pattern of a configuration that passed has passed. -/
theorem forall_of_validate {c : Config} (h : c.validate = .ok ()) :
    (∀ id ∈ c.checks.keys, checkKnown id = .ok ()) ∧
      ∀ p ∈ c.paths.patterns, checkPattern p = .ok () := by
  rw [validate] at h
  split at h
  next => cases h
  next =>
    split at h
    next => cases h
    next =>
      obtain ⟨⟨⟩, hchecks, hpatterns⟩ := Outcomes.bind_eq_ok_iff.mp h
      exact ⟨Outcomes.eq_ok_of_forM_eq_ok hchecks, Outcomes.eq_ok_of_forM_eq_ok hpatterns⟩

/-! ## One change -/

/-- The check that a change is about. -/
def Change.about? : Change → Option Text
  | .setCheck id _ => some id
  | .disableCheck id => some id
  | .addPattern _ => none
  | .setIgnoreFile _ => none
  | .addExtension _ => none

/-- What a change makes of the settings of the check that it is about. -/
def Change.settle : Change → Option CheckRule → Option CheckRule
  | .setCheck _ rule, _ => some rule
  | .disableCheck _, old => old.map fun rule => { rule with enabled := false }
  | .addPattern _, old => old
  | .setIgnoreFile _, old => old
  | .addExtension _, old => old

/-- **A change settles the check that it is about**, and leaves the others alone. -/
theorem getElem?_checks_change (c : Config) (ch : Change) (id : Text) :
    (c.change ch).checks[id]? =
      if ch.about? = some id then ch.settle c.checks[id]? else c.checks[id]? := by
  cases ch with
  | addPattern _ => simp [change, Change.about?]
  | setIgnoreFile _ => simp [change, Change.about?]
  | addExtension _ => simp [change, Change.about?]
  | setCheck other rule =>
    simp [change, Change.about?, Change.settle, Std.TreeMap.getElem?_insert,
      Std.LawfulEqCmp.compare_eq_iff_eq]
  | disableCheck other =>
    simp only [change, Change.about?, Change.settle, Std.TreeMap.getElem?_modify,
      Std.LawfulEqCmp.compare_eq_iff_eq, Option.some.injEq]
    split
    next h => rw [h]
    next => rfl

/-- No change drops a check. -/
theorem mem_checks_change {c : Config} {id : Text} (h : id ∈ c.checks) (ch : Change) :
    id ∈ (c.change ch).checks := by
  rw [Std.TreeMap.mem_iff_isSome_getElem?] at h ⊢
  rw [getElem?_checks_change]
  split
  next => cases ch <;> simp [Change.settle, h]
  next => exact h

/-! ## A run of changes -/

theorem mem_checks_foldl {id : Text} (changes : List Change) :
    ∀ {c : Config}, id ∈ c.checks → id ∈ (changes.foldl change c).checks := by
  induction changes with
  | nil => exact fun h => h
  | cons ch changes ih => exact fun h => ih (mem_checks_change h ch)

/-- Changes that are not about a check leave its settings alone. -/
theorem getElem?_checks_foldl_of_forall_ne {id : Text} {changes : List Change}
    (h : ∀ ch ∈ changes, ch.about? ≠ some id) :
    ∀ c : Config, (changes.foldl change c).checks[id]? = c.checks[id]? := by
  induction changes with
  | nil => exact fun _ => rfl
  | cons ch changes ih =>
    obtain ⟨hch, hchanges⟩ := List.forall_mem_cons.mp h
    intro c
    rw [List.foldl_cons, ih hchanges, getElem?_checks_change, if_neg hch]

/-- **The last change that is about a check decides its settings.** -/
theorem getElem?_checks_foldl_append_cons {id : Text} {ch : Change} {after : List Change}
    (hch : ch.about? = some id) (hafter : ∀ a ∈ after, a.about? ≠ some id) (before : List Change)
    (c : Config) :
    ((before ++ ch :: after).foldl change c).checks[id]? =
      ch.settle (before.foldl change c).checks[id]? := by
  rw [List.foldl_append, List.foldl_cons, getElem?_checks_foldl_of_forall_ne hafter,
    getElem?_checks_change, if_pos hch]

/-! ## Checks that are listed and counted -/

/-- The checks that are listed are those that are mentioned and on. -/
theorem mem_map_fst_enabledChecks_iff {c : Config} {id : Text} :
    id ∈ c.enabledChecks.map Prod.fst ↔
      ∃ rule, c.checks[id]? = some rule ∧ rule.enabled = true := by
  rw [List.mem_map]
  constructor
  · rintro ⟨⟨_, rule⟩, hmem, rfl⟩
    obtain ⟨hmem, hon⟩ := List.mem_filter.mp hmem
    exact ⟨rule, Std.TreeMap.mem_toList_iff_getElem?_eq_some.mp hmem, hon⟩
  · rintro ⟨rule, hrule, hon⟩
    have hmem := Std.TreeMap.mem_toList_iff_getElem?_eq_some.mpr hrule
    exact ⟨(id, rule), List.mem_filter.mpr ⟨hmem, hon⟩, rfl⟩

/-- The checks that are on are listed in the order of the bytes of their names. -/
theorem pairwise_enabledChecks (c : Config) :
    (c.enabledChecks.map Prod.fst).Pairwise fun a b => Utf8.encode a < Utf8.encode b := by
  have hkeys : (c.checks.toList.map Prod.fst).Pairwise fun a b => compare a b = .lt := by
    rw [Std.TreeMap.map_fst_toList_eq_keys]
    exact Std.TreeMap.ordered_keys
  exact (hkeys.imp Utf8.encode_lt_of_compare).sublist (List.filter_sublist.map Prod.fst)

namespace Stats

/-- Counting one more check keeps the checks that are on in step with their severities. -/
theorem severities_add {s : Stats} (h : s.error + s.warning + s.info = s.enabled)
    (rule : CheckRule) :
    (s.add rule).error + (s.add rule).warning + (s.add rule).info = (s.add rule).enabled := by
  unfold add
  split
  next => cases rule.severity <;> simp only <;> omega
  next => exact h

theorem enabled_add (s : Stats) (rule : CheckRule) :
    (s.add rule).enabled = s.enabled + if rule.enabled then 1 else 0 := by
  unfold add
  split
  next => cases rule.severity <;> rfl
  next => rfl

theorem total_add (s : Stats) (rule : CheckRule) : (s.add rule).total = s.total + 1 := by
  unfold add total
  split
  next => cases rule.severity <;> simp only <;> omega
  next => simp only; omega

variable {rules : List CheckRule}

theorem severities_foldl :
    ∀ {s : Stats}, s.error + s.warning + s.info = s.enabled →
      (rules.foldl add s).error + (rules.foldl add s).warning + (rules.foldl add s).info =
        (rules.foldl add s).enabled := by
  induction rules with
  | nil => exact fun h => h
  | cons rule rules ih => exact fun h => ih (severities_add h rule)

theorem enabled_foldl :
    ∀ s : Stats, (rules.foldl add s).enabled = s.enabled + rules.countP (·.enabled) := by
  induction rules with
  | nil => exact fun _ => rfl
  | cons rule rules ih =>
    intro s
    rw [List.foldl_cons, ih, enabled_add, List.countP_cons]
    omega

theorem total_foldl : ∀ s : Stats, (rules.foldl add s).total = s.total + rules.length := by
  induction rules with
  | nil => exact fun _ => rfl
  | cons rule rules ih =>
    intro s
    rw [List.foldl_cons, ih, total_add, List.length_cons]
    omega

end Stats

/-- Every check that is on is counted under its severity. -/
theorem severities_stats (c : Config) :
    c.stats.error + c.stats.warning + c.stats.info = c.stats.enabled :=
  Stats.severities_foldl rfl

/-- Every check is counted, on or off. -/
theorem total_stats (c : Config) : c.stats.total = c.checks.size := by
  rw [stats, Stats.total_foldl, Table.values_eq_map_snd_toList, List.length_map,
    Std.TreeMap.length_toList]
  exact Nat.zero_add _

/-- As many checks are counted as on as are listed. -/
theorem enabled_stats (c : Config) : c.stats.enabled = c.enabledChecks.length := by
  rw [stats, Stats.enabled_foldl, Table.values_eq_map_snd_toList, List.countP_map,
    enabledChecks, ← List.countP_eq_length_filter]
  exact Nat.zero_add _

/-! ## The checks of a configuration that was built -/

theorem mem_standardChecks {id : String} (hid : id ∈ checkIds) : id.toList ∈ standardChecks :=
  (by decide : ∀ id ∈ checkIds, id.toList ∈ standardChecks) id hid

/-- What passed the validation is a configuration of checks that exist. -/
theorem mem_checkIds_of_validate {c : Config} (h : c.validate = .ok ()) {id : Text}
    (hid : id ∈ c.checks) : String.ofList id ∈ checkIds := by
  have hknown := (forall_of_validate h).1 id (Std.TreeMap.mem_keys.mpr hid)
  rw [checkKnown] at hknown
  split at hknown
  next hcontains => exact List.contains_iff_mem.mp hcontains
  next => cases hknown

/-- A configuration that was built is what the changes make of the standard one, and passes. -/
theorem build_eq_ok_iff {changes : List Change} {c : Config} :
    build changes = .ok c ↔ c.validate = .ok () ∧ changes.foldl change standard = c := by
  rw [build, Outcomes.bind_eq_ok_iff]
  constructor
  · rintro ⟨⟨⟩, hpass, h⟩
    cases h
    exact ⟨hpass, rfl⟩
  · rintro ⟨hpass, rfl⟩
    exact ⟨(), hpass, rfl⟩

/-- **A configuration that was built mentions exactly the checks that exist.** -/
theorem mem_checks_iff_of_build {changes : List Change} {c : Config} (h : build changes = .ok c)
    (id : String) : id.toList ∈ c.checks ↔ id ∈ checkIds := by
  obtain ⟨hpass, rfl⟩ := build_eq_ok_iff.mp h
  refine ⟨fun hid => ?_, fun hid => mem_checks_foldl changes (mem_standardChecks hid)⟩
  rw [← String.ofList_toList (s := id)]
  exact mem_checkIds_of_validate hpass hid

theorem size_checks_of_build {changes : List Change} {c : Config} (h : build changes = .ok c) :
    c.checks.size = checkIds.length := by
  have hperm : c.checks.keys.Perm (checkIds.map String.toList) := by
    refine (List.perm_ext_iff_of_nodup Std.TreeMap.nodup_keys (by decide)).mpr fun id => ?_
    have hiff := mem_checks_iff_of_build h (String.ofList id)
    rw [String.toList_ofList] at hiff
    rw [Std.TreeMap.mem_keys, hiff, List.mem_map]
    refine ⟨fun hid => ⟨_, hid, String.toList_ofList⟩, ?_⟩
    rintro ⟨name, hname, rfl⟩
    rwa [String.ofList_toList]
  rw [← Std.TreeMap.length_keys, hperm.length_eq, List.length_map]

/-- The severity of a check that is mentioned is that of its own settings. -/
theorem severityFor_of_getElem? {c : Config} {id : String} {rule : CheckRule}
    (h : c.checks[id.toList]? = some rule) :
    c.severityFor id = if rule.enabled then some rule.severity else none := by
  rw [severityFor, h]

/-- **A check is on exactly if it is listed as on**, where standard settings make no difference:
if it is mentioned, or has none. -/
theorem mem_map_fst_enabledChecks_iff_isEnabled {c : Config} {id : String}
    (h : id.toList ∈ standardChecks → id.toList ∈ c.checks) :
    id.toList ∈ c.enabledChecks.map Prod.fst ↔ c.isEnabled id = true := by
  rw [mem_map_fst_enabledChecks_iff, isEnabled]
  cases hrule : c.checks[id.toList]? with
  | some rule =>
    rw [severityFor_of_getElem? hrule]
    cases hon : rule.enabled <;> simp [hon]
  | none =>
    have hnot : id.toList ∉ c.checks := fun hmem => by
      rw [Std.TreeMap.mem_iff_isSome_getElem?, hrule] at hmem
      cases hmem
    rw [severityFor, hrule, Std.TreeMap.getElem?_eq_none fun hmem => hnot (h hmem)]
    simp

/-- What the changes settle about a configuration that was built with them. -/
structure IsSettledBy (c : Config) (changes : List Change) : Prop where
  /-- The configuration mentions the checks that exist, and no others. -/
  mem_checks_iff : ∀ id : String, id.toList ∈ c.checks ↔ id ∈ checkIds
  size_checks : c.checks.size = checkIds.length
  /-- A check that no change is about has its standard settings. -/
  untouched : ∀ id : String, (∀ ch ∈ changes, ch.about? ≠ some id.toList) →
    c.checks[id.toList]? = standardChecks[id.toList]?
  /-- A check that is set last has the settings that it was given there. -/
  set_last : ∀ (id : String) rule before after,
    changes = before ++ .setCheck id.toList rule :: after →
    (∀ ch ∈ after, ch.about? ≠ some id.toList) → c.checks[id.toList]? = some rule
  /-- A check that is turned off last has the settings from before, but is off. -/
  off_last : ∀ id ∈ checkIds, ∀ before after,
    changes = before ++ .disableCheck id.toList :: after →
    (∀ ch ∈ after, ch.about? ≠ some id.toList) →
    ∃ old, (before.foldl change standard).checks[id.toList]? = some old ∧
      c.checks[id.toList]? = some { old with enabled := false }
  /-- A check that exists has the severity of its settings, unless it is off. -/
  severityFor_eq : ∀ id ∈ checkIds, ∃ rule, c.checks[id.toList]? = some rule ∧
    c.severityFor id = if rule.enabled then some rule.severity else none
  /-- The checks that are listed are those that are on. -/
  mem_enabledChecks_iff : ∀ id : String,
    id.toList ∈ c.enabledChecks.map Prod.fst ↔ c.isEnabled id = true
  /-- They are listed in the order of the bytes of their names. -/
  pairwise_enabledChecks :
    (c.enabledChecks.map Prod.fst).Pairwise fun a b => Utf8.encode a < Utf8.encode b
  enabled_stats : c.stats.enabled = c.enabledChecks.length
  severities_stats : c.stats.error + c.stats.warning + c.stats.info = c.stats.enabled
  total_stats : c.stats.enabled + c.stats.disabled = c.checks.size

/-- **A configuration that was built is settled by its changes**: the last change that is about a
check decides its settings, and its severity, the list of checks that are on and the counts all
tell the same of them. -/
theorem isSettledBy_of_build {changes : List Change} {c : Config} (h : build changes = .ok c) :
    c.IsSettledBy changes := by
  have hmem := mem_checks_iff_of_build h
  have hsize := size_checks_of_build h
  obtain ⟨-, rfl⟩ := build_eq_ok_iff.mp h
  have hseverity : ∀ id ∈ checkIds, ∃ rule,
      (changes.foldl change standard).checks[id.toList]? = some rule ∧
        (changes.foldl change standard).severityFor id =
          if rule.enabled then some rule.severity else none := by
    intro id hid
    obtain ⟨rule, hrule⟩ :=
      Option.isSome_iff_exists.mp (Std.TreeMap.mem_iff_isSome_getElem?.mp ((hmem id).mpr hid))
    exact ⟨rule, hrule, severityFor_of_getElem? hrule⟩
  exact
    { mem_checks_iff := hmem
      size_checks := hsize
      untouched := fun id hid => getElem?_checks_foldl_of_forall_ne hid standard
      set_last := by
        rintro id rule before after rfl hafter
        exact getElem?_checks_foldl_append_cons rfl hafter before standard
      off_last := by
        rintro id hid before after rfl hafter
        have hold := mem_checks_foldl before (c := standard) (mem_standardChecks hid)
        obtain ⟨old, hold⟩ :=
          Option.isSome_iff_exists.mp (Std.TreeMap.mem_iff_isSome_getElem?.mp hold)
        refine ⟨old, hold, ?_⟩
        rw [getElem?_checks_foldl_append_cons rfl hafter, hold]
        rfl
      severityFor_eq := hseverity
      mem_enabledChecks_iff := fun _ =>
        mem_map_fst_enabledChecks_iff_isEnabled fun hid =>
          mem_checks_foldl changes (c := standard) hid
      pairwise_enabledChecks := pairwise_enabledChecks _
      enabled_stats := enabled_stats _
      severities_stats := severities_stats _
      total_stats := total_stats _ }

/-- Changes that turn a check off, set it anew and turn another one off. -/
def offAndOn : List Change :=
  [.disableCheck "parse_error".toList,
    .setCheck "parse_error".toList ⟨"Rules that are not read".toList, .warning, true⟩,
    .disableCheck "unused_selector".toList]

/-- The check that was set anew ends on, with its new severity, and the other one off. -/
theorem isSettledBy_of_build_offAndOn :
    ∃ c, build offAndOn = .ok c ∧ c.IsSettledBy offAndOn ∧
      c.severityFor "parse_error" = some .warning ∧ c.severityFor "unused_selector" = none := by
  have hbuild : build offAndOn = .ok (offAndOn.foldl change standard) :=
    build_eq_ok_iff.mpr ⟨Outcomes.eq_ok_of_toOption (by decide +kernel), rfl⟩
  exact ⟨_, hbuild, isSettledBy_of_build hbuild, by decide, by decide⟩

end StyleAudit.Config
