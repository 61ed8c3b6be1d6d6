import Mathlib.Data.List.Basic
import StyleAudit.JsonValue
import StyleAudit.Proofs.Text.Numbers

/-!
# JSON can be read in one way only

A value is written with its parts in it, and the parts are written without a word about how long
they are.  Still the text tells the value (`pretty_injective`), because every part tells where it
ends: whatever stands behind a part, the part can be read off and what stands behind it is known
(`Tells`).

* A number ends where its digits do.  So this holds only if no digit stands behind the part, which
  is never the case inside an array or an object (`Ends`).
* A string ends with the first quote, for none of its own is written as one
  (`escaped_ne_quote`), and each character is read back from what it is written as
  (`unescape_escaped`).
* The members between two brackets are followed by a comma, except for the last one, which is
  followed by a line end (`tells_bracketed`).

What kind of value it is, its first character tells (`kindOf_render`).
-/

namespace StyleAudit.JsonValue

open Text

/-! ## Parts that tell where they end -/

/-- No number goes on with the text. -/
def Ends (t : Text) : Prop := ∀ c ∈ t.head?, c.isDigit = false

theorem ends_cons {c : Char} (h : c.isDigit = false) (t : Text) : Ends (c :: t) := by
  intro d hd
  rw [List.head?_cons, Option.mem_some_iff] at hd
  exact hd ▸ h

/-- The way in which things are written tells this one, and where it ends. -/
def Tells {β : Type} (write : β → String) (b : β) : Prop :=
  ∀ ⦃b' : β⦄ ⦃s t : Text⦄, Ends s → Ends t →
    (write b).toList ++ s = (write b').toList ++ t → b = b' ∧ s = t

/-! ## Numbers -/

/-- A number ends where its digits do. -/
theorem tells_number (n : Nat) : Tells (fun n : Nat => toString n) n := by
  intro m s t hs ht h
  have hdigits := congrArg (List.takeWhile Char.isDigit) h
  rw [takeWhile_number n hs, takeWhile_number m ht] at hdigits
  have hvalue := congrArg numberOf hdigits
  rw [numberOf_number, numberOf_number] at hvalue
  subst hvalue
  exact ⟨rfl, List.append_cancel_left h⟩

/-! ## Strings -/

/-- The characters that stand behind a backslash for one character, and which. -/
def marks : List (Char × Char) :=
  [('"', '"'), ('\\', '\\'), ('n', '\n'), ('r', '\r'), ('t', '\t'), ('b', '\x08'), ('f', '\x0c')]

/-- The value of a hexadecimal digit. -/
def hexValue (c : Char) : Nat := if c.isDigit then c.toNat - 48 else c.toNat - 87

/-- The character whose code four digits are; its first two are zeros. -/
def ofCode : Text → Option (Char × Text)
  | _ :: _ :: a :: b :: rest => some (Char.ofNat (16 * hexValue a + hexValue b), rest)
  | _ => none

/-- The character that something behind a backslash stands for. -/
def ofMark : Text → Option (Char × Text)
  | [] => none
  | m :: rest => if m = 'u' then ofCode rest else (marks.lookup m).map fun c => (c, rest)

/-- The first character of the inside of a string, and what stands behind it. -/
def unescape : Text → Option (Char × Text)
  | [] => none
  | c :: rest => if c = '\\' then ofMark rest else some (c, rest)

/-- A character with a mark is written as a backslash and its mark. -/
theorem escaped_of_mem_marks : ∀ p ∈ marks,
    (escaped p.2).toList = ['\\', p.1] ∧ p.1 ≠ 'u' ∧ marks.lookup p.1 = some p.2 := by
  decide +kernel

theorem hexValue_digitChar : ∀ n < 16, hexValue (Nat.digitChar n) = n := by decide

/-- All other characters are written as their code or as they are. -/
theorem escaped_of_no_mark {c : Char} (h : c ∉ marks.map Prod.snd) :
    (escaped c).toList =
      if c.toNat < 0x20 then
        ['\\', 'u', '0', '0', Nat.digitChar (c.toNat / 16), Nat.digitChar (c.toNat % 16)]
      else [c] := by
  simp only [marks, List.map_cons, List.map_nil, List.mem_cons, List.not_mem_nil, or_false,
    not_or] at h
  obtain ⟨hquote, hbackslash, hn, hr, ht, hb, hf⟩ := h
  rw [escaped, if_neg hquote, if_neg hbackslash, if_neg hn, if_neg hr, if_neg ht, if_neg hb,
    if_neg hf]
  split
  next =>
    rw [String.toList_append, String.toList_ofList]
    simp
  next => exact String.toList_singleton c

/-- **A character is read back from what it is written as.** -/
theorem unescape_escaped (c : Char) (rest : Text) :
    unescape ((escaped c).toList ++ rest) = some (c, rest) := by
  by_cases hmark : c ∈ marks.map Prod.snd
  · obtain ⟨⟨m, _⟩, hmem, rfl⟩ := List.mem_map.mp hmark
    obtain ⟨hwritten, hm, hread⟩ := escaped_of_mem_marks _ hmem
    rw [hwritten]
    show (if m = 'u' then _ else (marks.lookup m).map fun c => (c, rest)) = _
    rw [if_neg hm, hread]
    rfl
  · rw [escaped_of_no_mark hmark]
    split
    next hcode =>
      have hvalue : 16 * (c.toNat / 16) + c.toNat % 16 = c.toNat := Nat.div_add_mod _ _
      show some (Char.ofNat (16 * hexValue _ + hexValue _), rest) = _
      rw [hexValue_digitChar _ (by omega), hexValue_digitChar _ (by omega), hvalue,
        Char.ofNat_toNat]
    next =>
      have hne : c ≠ '\\' := by
        rintro rfl
        exact hmark (by decide)
      exact if_neg hne

/-- No character is written as a quote. -/
theorem escaped_ne_quote (c : Char) : ∃ d rest, (escaped c).toList = d :: rest ∧ d ≠ '"' := by
  by_cases hmark : c ∈ marks.map Prod.snd
  · obtain ⟨p, hmem, rfl⟩ := List.mem_map.mp hmark
    exact ⟨'\\', [p.1], (escaped_of_mem_marks p hmem).1, by decide⟩
  · rw [escaped_of_no_mark hmark]
    split
    next => exact ⟨'\\', _, rfl, by decide⟩
    next =>
      refine ⟨c, [], rfl, ?_⟩
      rintro rfl
      exact hmark List.mem_cons_self

theorem toList_quote (s : String) :
    (quote s).toList = '"' :: (s.toList.flatMap fun c => (escaped c).toList) ++ ['"'] := by
  rw [quote, String.toList_append, String.toList_append, String.toList_join, List.flatMap_map]
  rfl

/-- The inside of a string ends with the first quote. -/
theorem flatMap_escaped_append_inj :
    ∀ {cs ds s t : Text}, (cs.flatMap fun c => (escaped c).toList) ++ '"' :: s =
      (ds.flatMap fun c => (escaped c).toList) ++ '"' :: t → cs = ds ∧ s = t
  | [], [], _, _, h => ⟨rfl, List.tail_eq_of_cons_eq h⟩
  | [], d :: ds, _, _, h => by
    obtain ⟨x, rest, hd, hx⟩ := escaped_ne_quote d
    rw [List.flatMap_cons, hd] at h
    exact absurd (List.head_eq_of_cons_eq h).symm hx
  | c :: cs, [], _, _, h => by
    obtain ⟨x, rest, hc, hx⟩ := escaped_ne_quote c
    rw [List.flatMap_cons, hc] at h
    exact absurd (List.head_eq_of_cons_eq h) hx
  | c :: cs, d :: ds, s, t, h => by
    rw [List.flatMap_cons, List.flatMap_cons, List.append_assoc, List.append_assoc] at h
    have hread := congrArg unescape h
    rw [unescape_escaped, unescape_escaped, Option.some.injEq, Prod.mk.injEq] at hread
    obtain ⟨rfl, hrest⟩ := hread
    obtain ⟨rfl, hst⟩ := flatMap_escaped_append_inj hrest
    exact ⟨rfl, hst⟩

/-- **A string tells where it ends**: none of its characters is written as the quote behind it. -/
theorem quote_append_inj {a b : String} {s t : Text}
    (h : (quote a).toList ++ s = (quote b).toList ++ t) : a = b ∧ s = t := by
  rw [toList_quote, toList_quote, List.append_assoc, List.append_assoc] at h
  obtain ⟨hinside, hst⟩ := flatMap_escaped_append_inj (List.tail_eq_of_cons_eq h)
  exact ⟨String.toList_injective hinside, hst⟩

/-! ## Members between brackets -/

theorem exists_toList_indent (depth : Nat) : ∃ blanks, (indent depth).toList = '\n' :: blanks := by
  rw [indent, String.toList_append]
  exact ⟨_, rfl⟩

/-- The members behind the first one, each behind a comma and on a line of its own. -/
def followers (depth : Nat) (members : List String) : Text :=
  members.flatMap fun m => ',' :: (indent depth).toList ++ m.toList

theorem ends_followers (depth : Nat) (members : List String) (t : Text) :
    Ends (followers depth members ++ '\n' :: t) := by
  cases members with
  | nil => exact ends_cons (by decide) _
  | cons m members => exact ends_cons (by decide) _

theorem toList_bracketed_cons (opening closing : String) (depth : Nat) (m : String)
    (members : List String) :
    (bracketed opening closing depth (m :: members)).toList =
      opening.toList ++ ((indent (depth + 1)).toList ++ (m.toList ++
        (followers (depth + 1) members ++ ((indent depth).toList ++ closing.toList)))) := by
  have hjoined : ∀ m : String, (("," ++ indent (depth + 1)).intercalate (m :: members)).toList =
      m.toList ++ followers (depth + 1) members := by
    induction members with
    | nil =>
      intro m
      rw [String.intercalate_singleton, followers, List.flatMap_nil, List.append_nil]
    | cons n members ih =>
      intro m
      rw [String.intercalate_cons_cons, String.toList_append, String.toList_append, ih, followers,
        followers, List.flatMap_cons, String.toList_append]
      simp
  rw [bracketed, if_neg (by simp)]
  simp only [String.toList_append, hjoined, List.append_assoc]

section Members

variable {β : Type} {write : β → String} {depth : Nat}

/-- The members behind the first one tell where they end, before a line end. -/
theorem followers_append_inj :
    ∀ {bs cs : List β} {s t : Text}, (∀ b ∈ bs, Tells write b) →
      followers depth (bs.map write) ++ '\n' :: s = followers depth (cs.map write) ++ '\n' :: t →
      bs = cs ∧ s = t
  | [], [], _, _, _, h => ⟨rfl, List.tail_eq_of_cons_eq h⟩
  | [], c :: cs, _, _, _, h => absurd (List.head_eq_of_cons_eq h) (by decide)
  | b :: bs, [], _, _, _, h => absurd (List.head_eq_of_cons_eq h) (by decide)
  | b :: bs, c :: cs, s, t, hbs, h => by
    obtain ⟨hb, hbs⟩ := List.forall_mem_cons.mp hbs
    have hmembers : (write b).toList ++ (followers depth (bs.map write) ++ '\n' :: s) =
        (write c).toList ++ (followers depth (cs.map write) ++ '\n' :: t) := by
      simpa [followers] using h
    obtain ⟨rfl, hrest⟩ := hb (ends_followers _ _ _) (ends_followers _ _ _) hmembers
    obtain ⟨rfl, hst⟩ := followers_append_inj hbs hrest
    exact ⟨rfl, hst⟩

/-- **Members between brackets tell where they end**, if each of them does. -/
theorem tells_bracketed {opening closing : String} {bs : List β}
    (hclosing : ∃ x rest, closing.toList = x :: rest ∧ x ≠ '\n') (hbs : ∀ b ∈ bs, Tells write b) :
    Tells (fun bs : List β => bracketed opening closing depth (bs.map write)) bs := by
  intro cs s t hs ht h
  obtain ⟨x, rest, hx, hne⟩ := hclosing
  obtain ⟨blanks, hblanks⟩ := exists_toList_indent depth
  obtain ⟨blanks', hblanks'⟩ := exists_toList_indent (depth + 1)
  have hempty : (bracketed opening closing depth []).toList = opening.toList ++ closing.toList := by
    rw [bracketed, List.isEmpty_nil, if_pos rfl, String.toList_append]
  cases bs with
  | nil =>
    cases cs with
    | nil => exact ⟨rfl, List.append_cancel_left h⟩
    | cons c cs =>
      simp only [List.map_nil, List.map_cons, hempty, toList_bracketed_cons, hx, hblanks',
        List.append_assoc, List.append_cancel_left_eq] at h
      exact absurd (List.head_eq_of_cons_eq h) hne
  | cons b bs =>
    cases cs with
    | nil =>
      simp only [List.map_nil, List.map_cons, hempty, toList_bracketed_cons, hx, hblanks',
        List.append_assoc, List.append_cancel_left_eq] at h
      exact absurd (List.head_eq_of_cons_eq h).symm hne
    | cons c cs =>
      obtain ⟨hb, hbs⟩ := List.forall_mem_cons.mp hbs
      simp only [List.map_cons, toList_bracketed_cons, hblanks, List.append_assoc,
        List.append_cancel_left_eq, List.cons_append] at h
      obtain ⟨rfl, hrest⟩ := hb (ends_followers _ _ _) (ends_followers _ _ _) h
      obtain ⟨rfl, hst⟩ := followers_append_inj hbs hrest
      exact ⟨rfl, List.append_cancel_left (List.append_cancel_left hst)⟩

end Members

/-! ## Values -/

/-- The kinds of values. -/
inductive Kind where
  | null
  | number
  | string
  | array
  | object
  deriving DecidableEq

/-- The kind of a value. -/
def kind : JsonValue → Kind
  | null => .null
  | number _ => .number
  | string _ => .string
  | array _ => .array
  | object _ => .object

/-- The kind of the values that are written with the character in front. -/
def kindOf (c : Char) : Kind :=
  if c.isDigit then .number else if c = '"' then .string else if c = '[' then .array
  else if c = 'n' then .null else .object

theorem exists_toList_bracketed (opening closing : String) (depth : Nat) (members : List String) :
    ∃ rest, (bracketed opening closing depth members).toList = opening.toList ++ rest := by
  cases members with
  | nil => exact ⟨closing.toList, String.toList_append⟩
  | cons m members => exact ⟨_, toList_bracketed_cons opening closing depth m members⟩

/-- **The first character of a value tells its kind.** -/
theorem kindOf_render (v : JsonValue) (depth : Nat) :
    ∃ c rest, (v.render depth).toList = c :: rest ∧ kindOf c = v.kind := by
  cases v with
  | null =>
    rw [render]
    exact ⟨'n', _, rfl, rfl⟩
  | number n =>
    rw [render]
    obtain ⟨c, rest, hdigits, hc⟩ := exists_number_eq_cons n
    exact ⟨c, rest, hdigits, if_pos hc⟩
  | string s =>
    rw [render, toList_quote]
    exact ⟨'"', _, rfl, rfl⟩
  | array items =>
    rw [render]
    obtain ⟨rest, hrest⟩ := exists_toList_bracketed "[" "]" depth (renderItems (depth + 1) items)
    exact ⟨'[', rest, hrest, rfl⟩
  | object members =>
    rw [render]
    obtain ⟨rest, hrest⟩ :=
      exists_toList_bracketed "\x7b" "\x7d" depth (renderMembers (depth + 1) members)
    exact ⟨'\x7b', rest, hrest, rfl⟩

/-- Values with one text in front of something are of one kind. -/
theorem kind_eq_of_append_eq {v w : JsonValue} {depth : Nat} {s t : Text}
    (h : (v.render depth).toList ++ s = (w.render depth).toList ++ t) : v.kind = w.kind := by
  obtain ⟨c, rest, hv, hc⟩ := kindOf_render v depth
  obtain ⟨d, rest', hw, hd⟩ := kindOf_render w depth
  rw [hv, hw] at h
  rw [← hc, ← hd, List.head_eq_of_cons_eq h]

theorem renderItems_eq (depth : Nat) (vs : List JsonValue) :
    renderItems depth vs = vs.map (render depth) := by
  induction vs with
  | nil => rw [renderItems, List.map_nil]
  | cons v vs ih => rw [renderItems, ih, List.map_cons]

/-- A member of an object. -/
def memberText (depth : Nat) (m : String × JsonValue) : String :=
  quote m.1 ++ ": " ++ m.2.render depth

theorem renderMembers_eq (depth : Nat) (ms : List (String × JsonValue)) :
    renderMembers depth ms = ms.map (memberText depth) := by
  induction ms with
  | nil => rw [renderMembers, List.map_nil]
  | cons m ms ih => rw [renderMembers, ih, List.map_cons, memberText]

theorem tells_memberText {depth : Nat} {m : String × JsonValue} (h : Tells (render depth) m.2) :
    Tells (memberText depth) m := by
  intro n s t hs ht heq
  simp only [memberText, String.toList_append, List.append_assoc] at heq
  obtain ⟨hkey, heq⟩ := quote_append_inj heq
  obtain ⟨hvalue, hst⟩ := h hs ht (List.append_cancel_left heq)
  exact ⟨Prod.ext hkey hvalue, hst⟩

/-- **A value tells where it ends.** -/
theorem tells_render (v : JsonValue) (depth : Nat) : Tells (render depth) v := by
  intro w s t hs ht h
  have hkind := kind_eq_of_append_eq h
  match v with
  | null =>
    cases w with
    | null => exact ⟨rfl, List.append_cancel_left h⟩
    | _ => cases hkind
  | number n =>
    cases w with
    | number m =>
      obtain ⟨rfl, hst⟩ := tells_number n hs ht h
      exact ⟨rfl, hst⟩
    | _ => cases hkind
  | string a =>
    cases w with
    | string b =>
      obtain ⟨rfl, hst⟩ := quote_append_inj h
      exact ⟨rfl, hst⟩
    | _ => cases hkind
  | array items =>
    cases w with
    | array others =>
      simp only [render, renderItems_eq] at h
      obtain ⟨rfl, hst⟩ := tells_bracketed ⟨']', [], rfl, by decide⟩
        (fun u hu => tells_render u (depth + 1)) hs ht h
      exact ⟨rfl, hst⟩
    | _ => cases hkind
  | object members =>
    cases w with
    | object others =>
      simp only [render, renderMembers_eq] at h
      obtain ⟨rfl, hst⟩ := tells_bracketed ⟨'\x7d', [], rfl, by decide⟩
        (fun m hm => tells_memberText (tells_render m.2 (depth + 1))) hs ht h
      exact ⟨rfl, hst⟩
    | _ => cases hkind
termination_by v
decreasing_by
  · have hlt := List.sizeOf_lt_of_mem hu
    simp only [array.sizeOf_spec]
    omega
  · have hlt := List.sizeOf_lt_of_mem hm
    obtain ⟨key, value⟩ := m
    simp only [object.sizeOf_spec, Prod.mk.sizeOf_spec] at hlt ⊢
    omega

/-- **A JSON text is the text of one value only.** -/
theorem pretty_injective : Function.Injective pretty := by
  intro v w h
  have hends : Ends [] := by
    intro c hc
    cases hc
  have htext : (v.render 0).toList ++ [] = (w.render 0).toList ++ [] :=
    congrArg (fun s : String => s.toList ++ []) h
  exact (tells_render v 0 hends hends htext).1

/-! ## Reading values -/

/-- The member of an object with the given name. -/
def member? (name : String) : JsonValue → Option JsonValue
  | object members => members.lookup name
  | _ => none

theorem member?_object_cons (name key : String) (v : JsonValue)
    (members : List (String × JsonValue)) : (object ((key, v) :: members)).member? name =
      if name = key then some v else (object members).member? name := by
  rw [member?, List.lookup_cons, member?]
  by_cases h : name = key
  · rw [if_pos h, beq_iff_eq.mpr h]
  · rw [if_neg h, beq_eq_false_iff_ne.mpr h]

/-- The number that a value is. -/
def number? : JsonValue → Option Nat
  | number n => some n
  | _ => none

/-- The string that a value is. -/
def string? : JsonValue → Option String
  | string s => some s
  | _ => none

/-- The items of an array. -/
def array? : JsonValue → Option (List JsonValue)
  | array items => some items
  | _ => none

/-- What may be missing, as it is read. -/
def orNull? {α : Type} (read? : JsonValue → Option α) : JsonValue → Option (Option α)
  | null => some none
  | v => (read? v).map some

theorem orNull?_orNull {α : Type} {read? : JsonValue → Option α} {f : α → JsonValue}
    (hread : ∀ a, read? (f a) = some a) (hnull : ∀ a, f a ≠ null) (a : Option α) :
    orNull? read? (orNull f a) = some a := by
  cases a with
  | none => rfl
  | some a =>
    rw [orNull, orNull?, hread]
    · rfl
    · exact hnull a

theorem orNull?_number (n : Option Nat) : orNull? number? (orNull number n) = some n :=
  orNull?_orNull (f := number) (fun _ => rfl) (fun _ => nofun) n

theorem orNull?_string (s : Option String) : orNull? string? (orNull string s) = some s :=
  orNull?_orNull (f := string) (fun _ => rfl) (fun _ => nofun) s

end StyleAudit.JsonValue
