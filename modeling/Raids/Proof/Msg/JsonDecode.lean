import Raids.Proof.Msg.JsonString

namespace Raids

/-- The parts of a string token: a character, an escaped one, or a code of two or four digits. -/
inductive StringPart where
  | plain (c : UInt8)
  | escape (e : UInt8)
  | hex (h₁ h₂ : UInt8)
  | uchar (h₁ h₂ h₃ h₄ : UInt8)
  deriving DecidableEq

/-- The value of a hexadecimal digit. -/
def nibble (h : UInt8) : Nat := (hexValue h).getD 0

theorem nibble_eq {h : UInt8} {v : Nat} (found : hexValue h = some v) : nibble h = v := by
  rw [nibble, found, Option.getD_some]

theorem hexValue_eq {h : UInt8} (isHex : hexValue h ≠ none) : hexValue h = some (nibble h) := by
  cases found : hexValue h with
  | none => exact absurd found isHex
  | some v => rw [nibble_eq found]

theorem nibble_lt {h : UInt8} (isHex : hexValue h ≠ none) : nibble h < 16 :=
  (byte_weights.2.2.2.2.2.1 h _ (hexValue_eq isHex)).1

/-- The digits of a code point. -/
def codePoint (h₁ h₂ h₃ h₄ : UInt8) : Nat :=
  nibble h₁ * 4096 + nibble h₂ * 256 + nibble h₃ * 16 + nibble h₄

theorem or_nibbles {v₁ v₂ v₃ v₄ : Nat} (small₂ : v₂ < 16) (small₃ : v₃ < 16) (small₄ : v₄ < 16) :
    v₁ <<< 12 ||| v₂ <<< 8 ||| v₃ <<< 4 ||| v₄ = v₁ * 4096 + v₂ * 256 + v₃ * 16 + v₄ := by
  have first : v₁ <<< 12 ||| v₂ <<< 8 = (v₁ * 16 + v₂) <<< 8 := by
    rw [← Nat.shiftLeft_add_eq_or_of_lt (show v₂ <<< 8 < 2 ^ 12 by rw [Nat.shiftLeft_eq]; omega)]
    simp only [Nat.shiftLeft_eq]
    omega
  have second : (v₁ * 16 + v₂) <<< 8 ||| v₃ <<< 4 = ((v₁ * 16 + v₂) * 16 + v₃) <<< 4 := by
    rw [← Nat.shiftLeft_add_eq_or_of_lt (show v₃ <<< 4 < 2 ^ 8 by rw [Nat.shiftLeft_eq]; omega)]
    simp only [Nat.shiftLeft_eq]
    omega
  rw [first, second, ← Nat.shiftLeft_add_eq_or_of_lt (show v₄ < 2 ^ 4 by omega)]
  simp only [Nat.shiftLeft_eq]
  omega

/-- The encoding of a code point is the one of its character. -/
theorem utf8_eq (c : Char) (small : c.val.toNat < 65536) :
    utf8 c.val.toNat = String.utf8EncodeChar c := by
  have lead : ∀ n < 32, UInt8.ofNat (0xc0 ||| n) = UInt8.ofNat (n + 0xc0) := by decide
  have lead' : ∀ n < 16, UInt8.ofNat (0xe0 ||| n) = UInt8.ofNat (n + 0xe0) := by decide
  have follow : ∀ n < 64, UInt8.ofNat (0x80 ||| n) = UInt8.ofNat (n + 0x80) := by decide
  generalize size : c.val.toNat = n at small
  have low : n &&& 0x3f = n % 64 := Nat.and_two_pow_sub_one_eq_mod n 6
  have middle : (n &&& 0xfc0) >>> 6 = n / 64 % 64 := by
    rw [Nat.shiftRight_and_distrib, Nat.shiftRight_eq_div_pow]
    exact Nat.and_two_pow_sub_one_eq_mod (n / 64) 6
  unfold utf8 String.utf8EncodeChar
  rw [size]
  by_cases one : n ≤ 0x7f
  · rw [if_pos one, if_pos one]
  by_cases two : n ≤ 0x7ff
  · have top : n >>> 6 = n / 64 % 32 := by
      rw [Nat.shiftRight_eq_div_pow]
      omega
    rw [if_neg one, if_neg one, if_pos two, if_pos two, low, top, lead _ (by omega),
      follow _ (by omega)]
  · have top : n >>> 12 = n / 4096 % 16 := by
      rw [Nat.shiftRight_eq_div_pow]
      omega
    rw [if_neg one, if_neg one, if_neg two, if_neg two, if_pos (by omega), low, middle, top,
      lead' _ (by omega), follow _ (by omega), follow _ (by omega)]

namespace StringPart

/-- The characters of a part. -/
def text : StringPart → Bytes
  | .plain c => [c]
  | .escape e => [backslash, e]
  | .hex h₁ h₂ => [backslash, 120, h₁, h₂]
  | .uchar h₁ h₂ h₃ h₄ => [backslash, 117, h₁, h₂, h₃, h₄]

/-- The bytes that a part stands for. -/
def meaning : StringPart → Bytes
  | .plain c => [c]
  | .escape e => [unescape e]
  | .hex h₁ h₂ => [UInt8.ofNat (nibble h₁ * 16 + nibble h₂)]
  | .uchar h₁ h₂ h₃ h₄ => utf8 (codePoint h₁ h₂ h₃ h₄)

/-- A part of a token between these quotes. -/
def Valid (quote : UInt8) : StringPart → Prop
  | .plain c => c ≠ quote ∧ c ≠ backslash
  | .escape e => e ≠ 120 ∧ e ≠ 117
  | .hex h₁ h₂ => hexValue h₁ ≠ none ∧ hexValue h₂ ≠ none
  | .uchar h₁ h₂ h₃ h₄ =>
      hexValue h₁ ≠ none ∧ hexValue h₂ ≠ none ∧ hexValue h₃ ≠ none ∧ hexValue h₄ ≠ none

/-- The encoding of a code point is written behind `n` bytes into the block that has room for one
byte. -/
def CodeFits (n uchar : Nat) : Prop :=
  uchar ≤ 0x7f ∨ (uchar ≤ 0x7ff ∧ n % 16 ≠ 7) ∨ (0x7ff < uchar ∧ n % 16 ≠ 6 ∧ n % 16 ≠ 7)

instance (n uchar : Nat) : Decidable (CodeFits n uchar) := inferInstanceAs (Decidable (_ ∨ _))

/-- A part is read as it is meant behind `n` bytes: the first of two digits is zero, and a code
point leaves no hole at the end of a block. -/
def Fits (n : Nat) : StringPart → Prop
  | .hex h₁ _ => nibble h₁ = 0
  | .uchar h₁ h₂ h₃ h₄ => CodeFits n (codePoint h₁ h₂ h₃ h₄)
  | _ => True

end StringPart

/-- The bytes that the parts of a token stand for. -/
def meaning (parts : List StringPart) : Bytes := parts.flatMap StringPart.meaning

/-- Each part of a token behind `n` bytes is read as it is meant. -/
def PartsFit : Nat → List StringPart → Prop
  | _, [] => True
  | n, part :: parts => part.Fits n ∧ PartsFit (n + part.meaning.length) parts

namespace JsonString

variable {mem : JsonMem} {b b' : JsonString}

/-- The block ends at most 16 bytes behind the string, at a place that is fixed modulo 16. -/
structure Sized (b : JsonString) : Prop where
  grown : b.sz % 16 = 8
  fits : b.str.length ≤ b.sz
  close : b.sz ≤ b.str.length + 16

/-- Room for one more byte leaves the string as it is. -/
theorem reserve_sized (sized : b.Sized)
    (reserved : b.reserve mem (b.str.length = b.sz) = .ok b') :
    b'.str = b.str ∧ b'.Sized ∧ b'.str.length < b'.sz := by
  obtain ⟨grown, fits, close⟩ := sized
  unfold reserve extend at reserved
  by_cases full : b.str.length = b.sz
  · simp only [full, decide_true, if_true] at reserved
    split at reserved
    · cases reserved
      simp only [Nat.sub_self, List.range'_zero, List.map_nil, List.append_nil]
      refine ⟨trivial, ⟨?_, ?_, ?_⟩, ?_⟩
      · show (b.sz + 16) % 16 = 8
        omega
      · show b.str.length ≤ b.sz + 16
        omega
      · show b.sz + 16 ≤ b.str.length + 16
        omega
      · show b.str.length < b.sz + 16
        omega
    · cases reserved
  · rw [if_neg (by simpa using full)] at reserved
    cases reserved
    exact ⟨rfl, ⟨grown, fits, close⟩, by omega⟩

/-- The encoding of a code point is written behind the bytes that a new block may leave. -/
theorem putUchar_sized (sized : b.Sized) (room : b.str.length < b.sz) {uchar : Nat}
    (written : b.putUchar mem uchar = .ok b') :
    ∃ gap, b'.str = b.str ++ (gap ++ utf8 uchar) ∧ b'.Sized ∧
      (gap = [] ↔ StringPart.CodeFits b.str.length uchar) := by
  obtain ⟨grown, fits, close⟩ := sized
  unfold putUchar at written
  by_cases one : uchar ≤ 0x7f
  · rw [if_pos one] at written
    cases written
    have bytes : utf8 uchar = [UInt8.ofNat uchar] := if_pos one
    refine ⟨[], by rw [bytes]; rfl, ⟨grown, ?_, ?_⟩, iff_of_true rfl (Or.inl one)⟩
    · simp [put]
      omega
    · simp [put]
      omega
  by_cases two : uchar ≤ 0x7ff
  · rw [if_neg one, if_pos two] at written
    obtain ⟨b₁, reserved, last⟩ := bind_eq_ok.mp written
    cases last
    have bytes : utf8 uchar = [UInt8.ofNat (0xc0 ||| uchar >>> 6),
        UInt8.ofNat (0x80 ||| (uchar &&& 0x3f))] := by
      rw [utf8, if_neg one, if_pos two]
    unfold reserve extend at reserved
    by_cases full : b.str.length + 1 = b.sz
    · rw [if_pos (decide_eq_true full)] at reserved
      split at reserved
      · cases reserved
        refine ⟨(List.range' b.str.length (b.sz - b.str.length)).map mem.fill, ?_, ?_, ?_⟩
        · rw [bytes, put, List.append_assoc]
        · exact ⟨by simp [put]; omega, by simp [put]; omega, by simp [put]; omega⟩
        · apply iff_of_false
          · simp
            omega
          · rintro (small | ⟨-, place⟩ | ⟨large, -⟩) <;> omega
      · cases reserved
    · rw [if_neg (by simpa using full)] at reserved
      cases reserved
      refine ⟨[], by rw [bytes]; rfl, ?_, iff_of_true rfl (Or.inr (Or.inl ⟨two, by omega⟩))⟩
      exact ⟨grown, by simp [put]; omega, by simp [put]; omega⟩
  · rw [if_neg one, if_neg two] at written
    obtain ⟨b₁, reserved, last⟩ := bind_eq_ok.mp written
    cases last
    have bytes : utf8 uchar = [UInt8.ofNat (0xe0 ||| uchar >>> 12),
        UInt8.ofNat (0x80 ||| (uchar &&& 0xfc0) >>> 6), UInt8.ofNat (0x80 ||| (uchar &&& 0x3f))] := by
      rw [utf8, if_neg one, if_neg two]
    unfold reserve extend at reserved
    by_cases full : b.sz ≤ b.str.length + 2
    · rw [if_pos (decide_eq_true full)] at reserved
      split at reserved
      · cases reserved
        refine ⟨(List.range' b.str.length (b.sz - b.str.length)).map mem.fill, ?_, ?_, ?_⟩
        · rw [bytes, put, List.append_assoc]
        · exact ⟨by simp [put]; omega, by simp [put]; omega, by simp [put]; omega⟩
        · apply iff_of_false
          · simp
            omega
          · rintro (small | ⟨small, -⟩ | ⟨-, place⟩) <;> omega
      · cases reserved
    · rw [if_neg (by simpa using full)] at reserved
      cases reserved
      refine ⟨[], by rw [bytes]; rfl, ?_,
        iff_of_true rfl (Or.inr (Or.inr ⟨by omega, by omega, by omega⟩))⟩
      exact ⟨grown, by simp [put]; omega, by simp [put]; omega⟩

theorem put_sized (sized : b.Sized) (room : b.str.length < b.sz) (c : UInt8) :
    (b.put [c]).Sized := by
  obtain ⟨grown, fits, close⟩ := sized
  exact ⟨grown, by simp [put]; omega, by simp [put]; omega⟩

end JsonString

section Read

variable {mem : JsonMem} {quote : UInt8} {b : JsonString} {rest : Bytes}
open JsonString

/-- What the loop of an accepted token writes for a part is no shorter than its meaning. -/
theorem parseChars_part (isQuote : quote ≠ backslash) {part : StringPart}
    (valid : part.Valid quote) (sized : b.Sized) {r : Bytes × Bytes}
    (accepted : parseChars mem quote (part.text ++ rest) b = .ok r) :
    ∃ b' out, parseChars mem quote rest b' = .ok r ∧ b'.Sized ∧ b'.str = b.str ++ out ∧
      part.meaning.length ≤ out.length ∧ (out = part.meaning ↔ part.Fits b.str.length) := by
  cases part with
  | plain c =>
      rw [StringPart.text, List.singleton_append, parseChars] at accepted
      obtain ⟨b₁, reserved, next⟩ := bind_eq_ok.mp accepted
      obtain ⟨same, sized, room⟩ := reserve_sized sized reserved
      rw [if_neg valid.1, if_pos valid.2] at next
      refine ⟨b₁.put [c], [c], next, put_sized sized room c, ?_, le_rfl, iff_of_true rfl trivial⟩
      rw [put, same]
  | escape e =>
      simp only [StringPart.text, List.cons_append, List.nil_append] at accepted
      rw [parseChars] at accepted
      obtain ⟨b₁, reserved, next⟩ := bind_eq_ok.mp accepted
      obtain ⟨same, sized, room⟩ := reserve_sized sized reserved
      simp only [isQuote.symm, ne_eq, not_true_eq_false, if_false, valid.1, valid.2] at next
      refine ⟨b₁.put [unescape e], [unescape e], next, put_sized sized room _, ?_, le_rfl,
        iff_of_true rfl trivial⟩
      rw [put, same]
  | hex h₁ h₂ =>
      obtain ⟨first, second⟩ := valid
      simp only [StringPart.text, List.cons_append, List.nil_append] at accepted
      rw [parseChars] at accepted
      obtain ⟨b₁, reserved, next⟩ := bind_eq_ok.mp accepted
      obtain ⟨same, sized, room⟩ := reserve_sized sized reserved
      simp only [isQuote.symm, ne_eq, not_true_eq_false, if_false, if_true, hexValue_eq first,
        hexValue_eq second] at next
      refine ⟨_, [UInt8.ofNat (nibble h₁ <<< 8 ||| nibble h₂)], next, put_sized sized room _,
        by rw [put, same], le_rfl, ?_⟩
      have small := nibble_lt first
      have small' := nibble_lt second
      rw [StringPart.meaning, StringPart.Fits, List.cons.injEq, and_iff_left rfl,
        ← UInt8.toNat_inj, UInt8.toNat_ofNat', UInt8.toNat_ofNat',
        ← Nat.shiftLeft_add_eq_or_of_lt (show nibble h₂ < 2 ^ 8 by omega), Nat.shiftLeft_eq]
      omega
  | uchar h₁ h₂ h₃ h₄ =>
      obtain ⟨first, second, third, fourth⟩ := valid
      simp only [StringPart.text, List.cons_append, List.nil_append] at accepted
      rw [parseChars] at accepted
      obtain ⟨b₁, reserved, next⟩ := bind_eq_ok.mp accepted
      obtain ⟨same, sized, room⟩ := reserve_sized sized reserved
      simp only [isQuote.symm, ne_eq, not_true_eq_false, if_false, if_true, hexValue_eq first,
        hexValue_eq second, hexValue_eq third, hexValue_eq fourth] at next
      obtain ⟨b₂, written, last⟩ := bind_eq_ok.mp next
      obtain ⟨gap, str, sized, noGap⟩ := putUchar_sized sized room written
      rw [or_nibbles (nibble_lt second) (nibble_lt third) (nibble_lt fourth)] at str noGap
      refine ⟨b₂, _, last, sized, by rw [str, same], ?_, ?_⟩
      · rw [List.length_append]
        exact Nat.le_add_left _ _
      · rw [StringPart.meaning, StringPart.Fits, ← same]
        exact List.append_left_eq_self.trans noGap

/-- A token that is accepted is read to its quote, and as it is meant exactly where its parts
fit. -/
theorem parseChars_parts (isQuote : quote ≠ backslash) {parts : List StringPart}
    (valid : ∀ part ∈ parts, part.Valid quote) (sized : b.Sized) {v rest' : Bytes}
    (accepted : parseChars mem quote (parts.flatMap StringPart.text ++ quote :: rest) b =
      .ok (v, rest')) :
    rest' = rest ∧ ∃ out, v = b.str ++ out ∧ (meaning parts).length ≤ out.length ∧
      (out = meaning parts ↔ PartsFit b.str.length parts) := by
  induction parts generalizing b with
  | nil =>
      rw [List.flatMap_nil, List.nil_append, parseChars] at accepted
      obtain ⟨b₁, reserved, next⟩ := bind_eq_ok.mp accepted
      rw [if_pos rfl] at next
      cases next
      refine ⟨rfl, [], ?_, le_rfl, iff_of_true rfl trivial⟩
      rw [(reserve_sized sized reserved).1, List.append_nil]
  | cons part parts ih =>
      rw [List.flatMap_cons, List.append_assoc] at accepted
      obtain ⟨b', out, later, sized, str, long, exact⟩ :=
        parseChars_part isQuote (valid part List.mem_cons_self) sized accepted
      obtain ⟨same, outs, value, longs, exacts⟩ :=
        ih (fun part member => valid part (List.mem_cons_of_mem _ member)) sized later
      refine ⟨same, out ++ outs, by rw [value, str, List.append_assoc], ?_, ?_⟩
      · rw [meaning, List.flatMap_cons, List.length_append, List.length_append]
        exact Nat.add_le_add long longs
      · rw [meaning, List.flatMap_cons, PartsFit, ← exact]
        apply Iff.intro
        · intro whole
          have lengths := congrArg List.length whole
          rw [List.length_append, List.length_append] at lengths
          have equal : out.length = part.meaning.length := by
            rw [meaning] at longs
            omega
          obtain ⟨front, back⟩ := List.append_inj whole equal
          refine ⟨front, ?_⟩
          rw [← equal, ← List.length_append, ← str]
          exact exacts.mp back
        · rintro ⟨rfl, fits⟩
          rw [← List.length_append, ← str] at fits
          rw [exacts.mpr fits]
          rfl

/-- An accepted text starts with the parts of a token and its quote. -/
theorem exists_parts {text : Bytes} {r : Bytes × Bytes}
    (accepted : parseChars mem quote text b = .ok r) :
    ∃ parts : List StringPart, ∃ rest, (∀ part ∈ parts, part.Valid quote) ∧
      text = parts.flatMap StringPart.text ++ quote :: rest := by
  induction size : text.length using Nat.strong_induction_on generalizing text b with
  | _ n ih =>
      have add : ∀ (part : StringPart) (more : Bytes) (b' : JsonString), part.Valid quote →
          more.length < n → parseChars mem quote more b' = .ok r →
          ∃ parts : List StringPart, ∃ rest, (∀ part ∈ parts, part.Valid quote) ∧
            part.text ++ more = parts.flatMap StringPart.text ++ quote :: rest := by
        intro part more b' valid shorter later
        obtain ⟨parts, rest, valids, rfl⟩ := ih more.length shorter later rfl
        refine ⟨part :: parts, rest, ?_, ?_⟩
        · intro other member
          rcases List.mem_cons.mp member with rfl | member
          · exact valid
          · exact valids other member
        · rw [List.flatMap_cons, List.append_assoc]
      cases text with
      | nil => cases accepted
      | cons c more =>
          unfold parseChars at accepted
          obtain ⟨b', -, next⟩ := bind_eq_ok.mp accepted
          clear accepted
          rw [List.length_cons] at size
          split at next
          · rename_i isEnd
            subst isEnd
            exact ⟨[], more, by simp, rfl⟩
          rename_i notQuote
          split at next
          · rename_i notEscape
            exact add (.plain c) more _ ⟨notQuote, notEscape⟩ (by omega) next
          rename_i isEscape
          obtain rfl : c = backslash := not_not.mp isEscape
          cases more with
          | nil => cases next
          | cons e more =>
              rw [List.length_cons] at size
              dsimp only at next
              split at next
              · rename_i isHex
                subst isHex
                split at next
                · rename_i h₁ h₂ more
                  simp only [List.length_cons] at size
                  split at next
                  · rename_i first second
                    exact add (.hex h₁ h₂) more _ ⟨by simp [first], by simp [second]⟩ (by omega)
                      next
                  · cases next
                · cases next
              rename_i notHex
              split at next
              · rename_i isUchar
                subst isUchar
                split at next
                · rename_i h₁ h₂ h₃ h₄ more
                  simp only [List.length_cons] at size
                  split at next
                  · rename_i first second third fourth
                    obtain ⟨b'', -, last⟩ := bind_eq_ok.mp next
                    exact add (.uchar h₁ h₂ h₃ h₄) more _
                      ⟨by simp [first], by simp [second], by simp [third], by simp [fourth]⟩
                      (by omega) last
                  · cases next
                · cases next
              · rename_i notUchar
                exact add (.escape e) more _ ⟨notHex, notUchar⟩ (by omega) next

end Read

section Writes

variable {mem : JsonMem} {quote : UInt8} {b : JsonString}
open JsonString

/-- The string has room for `n` more bytes in its block. -/
def JsonString.Room (b : JsonString) (n : Nat) : Prop := b.str.length + n ≤ b.sz

/-- Each byte that the loop writes for a text is inside its block, the closing zero included. -/
def WritesInside (mem : JsonMem) (quote : UInt8) : Bytes → JsonString → Prop
  | [], _ => True
  | c :: rest, b => ∀ b', b.reserve mem (b.str.length = b.sz) = .ok b' →
      b'.Room 1 ∧
        if c = quote then True
        else if c ≠ backslash then WritesInside mem quote rest (b'.put [c])
        else
          match rest with
          | [] => True
          | e :: rest =>
              if e = 120 then
                match rest with
                | h₁ :: h₂ :: rest => ∀ v₁ v₂, hexValue h₁ = some v₁ → hexValue h₂ = some v₂ →
                    WritesInside mem quote rest (b'.put [UInt8.ofNat (v₁ <<< 8 ||| v₂)])
                | _ => True
              else if e = 117 then
                match rest with
                | h₁ :: h₂ :: h₃ :: h₄ :: rest => ∀ v₁ v₂ v₃ v₄, hexValue h₁ = some v₁ →
                    hexValue h₂ = some v₂ → hexValue h₃ = some v₃ → hexValue h₄ = some v₄ →
                    ∀ b'', b'.putUchar mem (v₁ <<< 12 ||| v₂ <<< 8 ||| v₃ <<< 4 ||| v₄) =
                      .ok b'' → b''.Room 0 ∧ WritesInside mem quote rest b''
                | _ => True
              else WritesInside mem quote rest (b'.put [unescape e])

/-- No text makes the loop write outside its block. -/
theorem writesInside (text : Bytes) (sized : b.Sized) : WritesInside mem quote text b := by
  induction size : text.length using Nat.strong_induction_on generalizing text b with
  | _ n ih =>
      cases text with
      | nil => trivial
      | cons c rest =>
          rw [WritesInside]
          intro b' reserved
          obtain ⟨-, sized, room⟩ := reserve_sized sized reserved
          apply And.intro room
          rw [List.length_cons] at size
          split
          · trivial
          split
          · exact ih rest.length (by omega) rest (put_sized sized room c) rfl
          cases rest with
          | nil => trivial
          | cons e rest =>
              rw [List.length_cons] at size
              dsimp only
              split
              · split
                · rename_i h₁ h₂ more
                  simp only [List.length_cons] at size
                  intro v₁ v₂ _ _
                  exact ih more.length (by omega) more (put_sized sized room _) rfl
                · trivial
              split
              · split
                · rename_i h₁ h₂ h₃ h₄ more
                  simp only [List.length_cons] at size
                  intro v₁ v₂ v₃ v₄ _ _ _ _ b'' written
                  obtain ⟨-, -, sized', -⟩ := putUchar_sized sized room written
                  exact ⟨sized'.fits, ih more.length (by omega) more sized' rfl⟩
                · trivial
              · exact ih rest.length (by omega) rest (put_sized sized room _) rfl

theorem sized_start : (⟨[], 8⟩ : JsonString).Sized := ⟨by decide, by decide, by decide⟩

end Writes

theorem toInt32_length_iff (n : Nat) : toInt32 n = n ↔ n < 2 ^ 31 := by
  apply Iff.intro
  · intro same
    rw [toInt32] at same
    have upper : Int.bmod (n : Int) (2 ^ 32) < (2 ^ 32 + 1) / 2 := Int.bmod_lt (by decide)
    omega
  · intro small
    exact toInt32_of_bounds (by omega) (by omega)

/-- A string has its bytes and their number where it is the string of these bytes and they fit. -/
theorem string_eq_iff (type : StringType) (v w : Bytes) :
    RedisMsg.string type (toInt32 v.length) v = .string type w.length w ↔
      v = w ∧ w.length < 2 ^ 31 := by
  rw [RedisMsg.string.injEq, and_iff_right rfl]
  apply Iff.intro
  · rintro ⟨length, same⟩
    rw [same, toInt32_length_iff] at length
    exact ⟨same, length⟩
  · rintro ⟨same, small⟩
    rw [same]
    exact ⟨(toInt32_length_iff _).mpr small, rfl⟩

/-- A token that is accepted is read as what its parts mean exactly where each part fits and the
length fits an int32, and no text makes the reader write outside its block. -/
theorem parseString_exact {mem : JsonMem} {quote : UInt8} {json : Bytes} {m : RedisMsg}
    {rest : Bytes} (isQuote : IsQuote quote)
    (accepted : parseString mem quote json = .ok (m, rest)) :
    (∃ parts : List StringPart, (∀ part ∈ parts, part.Valid quote) ∧
        json = parts.flatMap StringPart.text ++ quote :: rest) ∧
      (∀ parts : List StringPart, (∀ part ∈ parts, part.Valid quote) →
        ∀ rest', json = parts.flatMap StringPart.text ++ quote :: rest' →
          rest' = rest ∧
            (m = .string (quoteType quote) (meaning parts).length (meaning parts) ↔
              PartsFit 0 parts ∧ (meaning parts).length < 2 ^ 31)) ∧
      ∀ text, WritesInside mem quote text ⟨[], 8⟩ := by
  have notEscape : quote ≠ backslash := isQuote.facts.1
  obtain ⟨v, read, rfl⟩ : ∃ v, parseChars mem quote json ⟨[], 8⟩ = .ok (v, rest) ∧
      m = .string (quoteType quote) (toInt32 v.length) v := by
    unfold parseString at accepted
    split at accepted
    · cases result : parseChars mem quote json ⟨[], 8⟩ with
      | error e =>
          rw [result] at accepted
          cases accepted
      | ok r =>
          rw [result] at accepted
          cases accepted
          exact ⟨_, rfl, rfl⟩
    · cases accepted
  have unique : ∀ parts : List StringPart, (∀ part ∈ parts, part.Valid quote) →
      ∀ rest', json = parts.flatMap StringPart.text ++ quote :: rest' → rest' = rest ∧
        (v = meaning parts ↔ PartsFit 0 parts) := by
    rintro parts valid rest' rfl
    obtain ⟨same, out, value, -, exact⟩ := parseChars_parts notEscape valid sized_start read
    rw [List.nil_append] at value
    rw [value]
    exact ⟨same.symm, exact⟩
  refine ⟨?_, ?_, fun text => writesInside text sized_start⟩
  · obtain ⟨parts, rest', valid, split⟩ := exists_parts read
    rw [(unique parts valid rest' split).1] at split
    exact ⟨parts, valid, split⟩
  · intro parts valid rest' split
    obtain ⟨same, exact⟩ := unique parts valid rest' split
    refine ⟨same, ?_⟩
    rw [string_eq_iff, exact]

/-- A token with an escaped quote. -/
theorem parseString_exact_escape :
    ∃ parts : List StringPart, (∀ part ∈ parts, part.Valid doubleQuote) ∧
      [65, 92, 34, 34, 10] = parts.flatMap StringPart.text ++ doubleQuote :: [10] :=
  (@parseString_exact ⟨fun _ => true, fun _ => 0⟩ doubleQuote [65, 92, 34, 34, 10]
    (.string .bulkString 2 [65, 34]) [10] (by decide)
    (by
      simp [parseString, parseChars, JsonString.reserve, JsonString.put, backslash, doubleQuote,
        bind, Except.bind, Except.map]
      decide)).1

/-- A code point of two bytes behind seven bytes leaves a hole in the string. -/
theorem not_parseString_exact :
    let parts := List.replicate 7 (.plain 97) ++ [.uchar 48 48 101 57]
    parseString ⟨fun _ => true, fun _ => 0⟩ doubleQuote
        (parts.flatMap StringPart.text ++ [doubleQuote]) ≠
      .ok (.string .bulkString (meaning parts).length (meaning parts), []) := by
  intro parts same
  have size := congrArg (fun r => r.toOption.map fun p => p.1.toAlmostJsonSize true) same
  revert size
  decide

end Raids
