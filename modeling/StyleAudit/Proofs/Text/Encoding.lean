import StyleAudit.Text.Utf8

/-!
# Bytes that were written from a text read back as that text

`Utf8.encode` writes every character with one to four bytes, by the size of its code.  The
reader of one character (`headOf`) looks at the first byte for the number of continuation
bytes and for the range of the first of them, and then collects six bits from each.  The two
fit: the bytes of a character, whatever follows them, are read as that character
(`headOf_utf8EncodeChar`), and so a text survives (`decode_encode`).

The argument is the same for each of the four sizes: the code is split into a quotient and
remainders by powers of 64, and the quotient falls into the range that the first byte
promises.  What keeps surrogates out of the three-byte case is that a character is none.

A text is therefore known from its bytes (`encode_inj`).  The byte `255` is never one of them
(`notMem_encode`), so it can mark where they end.
-/

namespace StyleAudit.Utf8

/-- What is left to do when the bytes of an array are listed from the index `i` on. -/
theorem toList_loop_toByteArray (bs : List UInt8) (n : Nat) :
    ∀ (i : Nat) (acc : List UInt8), bs.length = i + n →
      ByteArray.toList.loop bs.toByteArray i acc = acc.reverse ++ bs.drop i := by
  have hsize : bs.toByteArray.size = bs.length := List.size_toByteArray
  induction n with
  | zero =>
    intro i acc hi
    rw [ByteArray.toList.loop, if_neg (by omega), List.drop_eq_nil_of_le (by omega),
      List.append_nil]
  | succ n ih =>
    intro i acc hi
    have hlt : i < bs.length := by omega
    have hget : bs.toByteArray.get! i = bs[i] := by
      show bs.toByteArray.data[i]! = bs[i]
      rw [List.data_toByteArray, getElem!_pos bs.toArray i (by simpa using hlt),
        List.getElem_toArray]
    rw [ByteArray.toList.loop, if_pos (by omega), ih _ _ (by omega), hget,
      List.drop_eq_getElem_cons hlt, List.reverse_cons, List.append_assoc, List.singleton_append]

/-- A list of bytes made an array and read as a list again. -/
theorem toList_toByteArray (bs : List UInt8) : bs.toByteArray.toList = bs := by
  rw [ByteArray.toList, toList_loop_toByteArray bs bs.length 0 [] (by omega)]
  rfl

/-- The bytes of a text are those of its characters, one after the other. -/
theorem encode_eq (t : Text) : encode t = t.flatMap String.utf8EncodeChar := by
  rw [encode, String.toUTF8_eq_toByteArray, String.toByteArray_ofList, List.utf8Encode,
    toList_toByteArray]

/-- The number of a byte that is written as a number below 256. -/
theorem toNat_ofNat_of_lt {n : Nat} (h : n < 256) : (UInt8.ofNat n).toNat = n := by
  rw [UInt8.toNat_ofNat', Nat.mod_eq_of_lt h]

/-! ## One character -/

/-- A continuation byte in its range adds six bits. -/
theorem continuation_cons {code seen more low high n : Nat} (hlow : low ≤ 0x80 + n)
    (hhigh : 0x80 + n ≤ high) (hn : n < 64) (bs : List UInt8) :
    continuation code seen (more + 1) low high (UInt8.ofNat (n + 0x80) :: bs) =
      continuation (64 * code + n) (seen + 1) more 0x80 0xBF bs := by
  have hb : (UInt8.ofNat (n + 0x80)).toNat = n + 0x80 := toNat_ofNat_of_lt (by omega)
  rw [continuation, hb, if_pos ⟨by omega, by omega⟩]
  congr 2
  omega

section Lead

variable {v : Nat}

theorem leadOf?_one (h : v ≤ 0x7f) : leadOf? (UInt8.ofNat v) = some ⟨v, 0, 0x80, 0xBF⟩ := by
  have hb : (UInt8.ofNat v).toNat = v := toNat_ofNat_of_lt (by omega)
  simp only [leadOf?, hb]
  rw [if_pos (by omega)]

theorem leadOf?_two (hlow : 0x7f < v) (hhigh : v ≤ 0x7ff) :
    leadOf? (UInt8.ofNat (v / 64 % 0x20 + 0xc0)) = some ⟨v / 64, 1, 0x80, 0xBF⟩ := by
  have hb : (UInt8.ofNat (v / 64 % 0x20 + 0xc0)).toNat = v / 64 % 0x20 + 0xc0 :=
    toNat_ofNat_of_lt (by omega)
  simp only [leadOf?, hb]
  rw [if_neg (by omega), if_neg (by omega), if_pos (by omega),
    show v / 64 % 0x20 + 0xc0 - 0xC0 = v / 64 by omega]

/-- The codes below `U+0800` and the surrogates are what narrows the second of three bytes. -/
theorem exists_leadOf?_three (hlow : 0x7ff < v) (hhigh : v ≤ 0xffff)
    (hsurrogate : v < 0xD800 ∨ 0xDFFF < v) :
    ∃ low high, leadOf? (UInt8.ofNat (v / 4096 % 0x10 + 0xe0)) = some ⟨v / 4096, 2, low, high⟩ ∧
      low ≤ 0x80 + v / 64 % 0x40 ∧ 0x80 + v / 64 % 0x40 ≤ high := by
  have hb : (UInt8.ofNat (v / 4096 % 0x10 + 0xe0)).toNat = v / 4096 % 0x10 + 0xe0 :=
    toNat_ofNat_of_lt (by omega)
  simp only [leadOf?, hb]
  rw [if_neg (by omega), if_neg (by omega), if_neg (by omega),
    show v / 4096 % 0x10 + 0xe0 - 0xE0 = v / 4096 by omega]
  split
  · rw [show v / 4096 = 0 by omega]
    exact ⟨_, _, rfl, by omega, by omega⟩
  · split
    · exact ⟨_, _, rfl, by omega, by omega⟩
    · rw [if_pos (by omega)]
      exact ⟨_, _, rfl, by omega, by omega⟩

/-- The codes below `U+10000` and those from `U+110000` on are what narrows the second of four
bytes. -/
theorem exists_leadOf?_four (hlow : 0xffff < v) (hhigh : v < 0x110000) :
    ∃ low high, leadOf? (UInt8.ofNat (v / 262144 % 0x08 + 0xf0)) =
        some ⟨v / 262144, 3, low, high⟩ ∧
      low ≤ 0x80 + v / 4096 % 0x40 ∧ 0x80 + v / 4096 % 0x40 ≤ high := by
  have hb : (UInt8.ofNat (v / 262144 % 0x08 + 0xf0)).toNat = v / 262144 % 0x08 + 0xf0 :=
    toNat_ofNat_of_lt (by omega)
  simp only [leadOf?, hb]
  rw [if_neg (by omega), if_neg (by omega), if_neg (by omega), if_neg (by omega),
    if_neg (by omega), if_neg (by omega),
    show v / 262144 % 0x08 + 0xf0 - 0xF0 = v / 262144 by omega]
  split
  · rw [show v / 262144 = 0 by omega]
    exact ⟨_, _, rfl, by omega, by omega⟩
  · split
    · exact ⟨_, _, rfl, by omega, by omega⟩
    · rw [if_pos (by omega), show v / 262144 = 4 by omega]
      exact ⟨_, _, rfl, by omega, by omega⟩

end Lead

/-- **The bytes of a character are read as that character**, whatever follows them. -/
theorem headOf_utf8EncodeChar (c : Char) (bs : List UInt8) :
    ∃ b more, String.utf8EncodeChar c = b :: more ∧
      headOf b (more ++ bs) = .char c more.length := by
  have hc : c.toNat < 0xD800 ∨ 0xDFFF < c.toNat ∧ c.toNat < 0x110000 := c.valid
  have hof : Char.ofNat c.toNat = c := Char.ofNat_toNat c
  unfold String.utf8EncodeChar
  simp only [Char.toNat_val]
  generalize c.toNat = v at hc hof
  subst hof
  by_cases h₁ : v ≤ 0x7f
  · refine ⟨UInt8.ofNat v, [], by rw [if_pos h₁], ?_⟩
    rw [headOf, leadOf?_one h₁]
    rfl
  by_cases h₂ : v ≤ 0x7ff
  · refine ⟨_, _, by rw [if_neg h₁, if_pos h₂], ?_⟩
    rw [headOf, leadOf?_two (by omega) h₂]
    simp only [List.cons_append, List.nil_append]
    rw [continuation_cons (by omega) (by omega) (by omega), continuation,
      show 64 * (v / 64) + v % 0x40 = v by omega]
    rfl
  by_cases h₃ : v ≤ 0xffff
  · refine ⟨_, _, by rw [if_neg h₁, if_neg h₂, if_pos h₃], ?_⟩
    obtain ⟨low, high, hlead, hlow, hhigh⟩ := exists_leadOf?_three (by omega) h₃ (by omega)
    rw [headOf, hlead]
    simp only [List.cons_append, List.nil_append]
    rw [continuation_cons hlow hhigh (by omega),
      continuation_cons (by omega) (by omega) (by omega), continuation,
      show 64 * (64 * (v / 4096) + v / 64 % 0x40) + v % 0x40 = v by omega]
    rfl
  · refine ⟨_, _, by rw [if_neg h₁, if_neg h₂, if_neg h₃], ?_⟩
    obtain ⟨low, high, hlead, hlow, hhigh⟩ :=
      exists_leadOf?_four (v := v) (by omega) (by omega)
    rw [headOf, hlead]
    simp only [List.cons_append, List.nil_append]
    rw [continuation_cons hlow hhigh (by omega),
      continuation_cons (by omega) (by omega) (by omega),
      continuation_cons (by omega) (by omega) (by omega), continuation,
      show 64 * (64 * (64 * (v / 262144) + v / 4096 % 0x40) + v / 64 % 0x40) + v % 0x40 = v by
        omega]
    rfl

/-! ## All characters -/

theorem decodeFrom_encode (index : Nat) (t : Text) : decodeFrom index (encode t) = .ok t := by
  rw [encode_eq]
  induction t generalizing index with
  | nil => rw [List.flatMap_nil, decodeFrom]
  | cons c t ih =>
    obtain ⟨b, more, hbytes, hhead⟩ :=
      headOf_utf8EncodeChar c (t.flatMap String.utf8EncodeChar)
    rw [List.flatMap_cons, hbytes, List.cons_append, decodeFrom, hhead]
    simp only [List.drop_left, ih]
    rfl

/-- **A text that is written in bytes and read back is that text.** -/
theorem decode_encode (t : Text) : decode (encode t) = .ok t := decodeFrom_encode 0 t

/-- No character has the byte `255`. -/
theorem ne_of_mem_utf8EncodeChar {c : Char} {b : UInt8} (h : b ∈ String.utf8EncodeChar c) :
    b ≠ 0xff := by
  have hlt : ∀ n < 255, UInt8.ofNat n ≠ 0xff := by
    intro n hn heq
    have hnat : n = 255 := by
      rw [← toNat_ofNat_of_lt (Nat.lt_succ_of_lt hn), heq]
      rfl
    omega
  revert h
  fun_cases String.utf8EncodeChar c <;> simp only [List.mem_cons, List.not_mem_nil, or_false]
  case case1 v hv =>
    rintro rfl
    exact hlt _ (by omega)
  case case2 v _ hv =>
    rintro (rfl | rfl) <;> exact hlt _ (by omega)
  case case3 v _ _ hv =>
    rintro (rfl | rfl | rfl) <;> exact hlt _ (by omega)
  case case4 v _ _ _ =>
    rintro (rfl | rfl | rfl | rfl) <;> exact hlt _ (by omega)

/-- No text has the byte `255`. -/
theorem notMem_encode (t : Text) : 0xff ∉ encode t := by
  intro h
  rw [encode_eq, List.mem_flatMap] at h
  obtain ⟨c, -, hc⟩ := h
  exact ne_of_mem_utf8EncodeChar hc rfl

/-- Different texts have different bytes. -/
theorem encode_inj {t u : Text} (h : encode t = encode u) : t = u := by
  have hdecode := decode_encode t
  rw [h, decode_encode] at hdecode
  exact (Except.ok.inj hdecode).symm

/-! ## Bytes that are a text -/

theorem decodeLossy_of_decodeFrom {index : Nat} {bytes : List UInt8} {t : Text}
    (h : decodeFrom index bytes = .ok t) : decodeLossy bytes = t := by
  fun_induction decodeFrom index bytes generalizing t with
  | case1 =>
    cases h
    rw [decodeLossy]
  | case2 index b bs c more hhead ih =>
    cases hrest : decodeFrom (index + 1 + more) (bs.drop more) with
    | error fault =>
      rw [hrest] at h
      cases h
    | ok u =>
      rw [hrest] at h
      cases h
      rw [decodeLossy, hhead]
      exact congrArg _ (ih hrest)
  | case3 => cases h
  | case4 => cases h

/-- Where nothing has to be put in its place, a text is read alike. -/
theorem decodeLossy_of_decode {bytes : List UInt8} {t : Text} (h : decode bytes = .ok t) :
    decodeLossy bytes = t :=
  decodeLossy_of_decodeFrom h

end StyleAudit.Utf8
