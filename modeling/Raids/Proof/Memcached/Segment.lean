import Raids.Construction.Memcached.Segment

namespace Raids.Memcached
open BigEndian

section Layout

variable (fs : Nat)

/-- The datagram that the byte at the place `p` of a response goes to. -/
def frameOf (p : Nat) : Nat := if p < fs then 0 else 1 + (p - fs) / (fs - mcHdrSize)

/-- The space of that datagram, without its own header. -/
def nextAt (p : Nat) : Nat := if p < fs then fs else fs - mcHdrSize

/-- The bytes in that datagram in front of the place. -/
def lenAt (p : Nat) : Nat := if p < fs then p else (p - fs) % (fs - mcHdrSize)

/-- A later datagram starts at the place. -/
def Boundary (p : Nat) : Prop := fs ≤ p ∧ (p - fs) % (fs - mcHdrSize) = 0

instance (p : Nat) : Decidable (Boundary fs p) := inferInstanceAs (Decidable (_ ∧ _))

variable {fs} (header : mcHdrSize < fs)
include header

theorem lenAt_lt (p : Nat) : lenAt fs p < nextAt fs p := by
  rw [mcHdrSize] at header
  rw [lenAt, nextAt, mcHdrSize]
  split
  · assumption
  · exact Nat.mod_lt _ (by omega)

theorem lenAt_zero : lenAt fs 0 = 0 := by
  rw [lenAt, if_pos (Nat.lt_of_le_of_lt (Nat.zero_le _) header)]

theorem nextAt_zero : nextAt fs 0 = fs := by
  rw [nextAt, if_pos (Nat.lt_of_le_of_lt (Nat.zero_le _) header)]

theorem boundary_iff (p : Nat) :
    lenAt fs p = 0 ∧ nextAt fs p = fs - mcHdrSize ↔ Boundary fs p := by
  rw [mcHdrSize] at header
  rw [lenAt, nextAt, Boundary, mcHdrSize]
  split
  · omega
  · omega

omit header in
/-- Bytes that do not fill the datagram stay in it. -/
theorem advance_within {p sz : Nat} (fits : lenAt fs p + sz < nextAt fs p) :
    lenAt fs (p + sz) = lenAt fs p + sz ∧ nextAt fs (p + sz) = nextAt fs p ∧
      frameOf fs (p + sz) = frameOf fs p := by
  rw [lenAt, nextAt, mcHdrSize] at fits
  rw [lenAt, lenAt, nextAt, nextAt, frameOf, frameOf, mcHdrSize]
  by_cases first : p < fs
  · rw [if_pos first, if_pos first] at fits
    have first' : p + sz < fs := fits
    simp only [first, first', if_true, and_self]
  · rw [if_neg first, if_neg first] at fits
    have later : ¬p + sz < fs := by omega
    simp only [first, later, if_false]
    have split := Nat.div_add_mod (p - fs) (fs - 8)
    have place : p + sz - fs = (fs - 8) * ((p - fs) / (fs - 8)) + ((p - fs) % (fs - 8) + sz) := by
      omega
    rw [place, Nat.mul_add_mod, Nat.mod_eq_of_lt fits, Nat.mul_add_div (by omega),
      Nat.div_eq_of_lt fits]
    exact ⟨rfl, trivial, rfl⟩

/-- Bytes that fill the datagram lead to the start of the next one. -/
theorem advance_full {p sz : Nat} (fills : lenAt fs p + sz = nextAt fs p) :
    Boundary fs (p + sz) ∧ frameOf fs (p + sz) = frameOf fs p + 1 := by
  rw [mcHdrSize] at header
  rw [lenAt, nextAt, mcHdrSize] at fills
  rw [Boundary, frameOf, frameOf, mcHdrSize]
  by_cases first : p < fs
  · rw [if_pos first, if_pos first] at fills
    have place : p + sz - fs = 0 := by omega
    have later : ¬p + sz < fs := by omega
    simp only [first, later, if_true, if_false, place, Nat.zero_mod, Nat.zero_div]
    exact ⟨⟨Nat.le_of_eq fills.symm, trivial⟩, trivial⟩
  · rw [if_neg first, if_neg first] at fills
    have later : ¬p + sz < fs := by omega
    have split := Nat.div_add_mod (p - fs) (fs - 8)
    have place : p + sz - fs = (fs - 8) * ((p - fs) / (fs - 8)) + (fs - 8) * 1 := by
      rw [Nat.mul_one]
      omega
    simp only [first, later, if_false]
    rw [place, ← Nat.mul_add, Nat.mul_mod_right, Nat.mul_div_cancel_left _ (by omega)]
    omega

end Layout

/-- What the second pass makes of the buffers from the offset `off` of the first one on, when the
place `p` of the response is reached: the entries of its datagram and of the later ones. -/
inductive Frames (fs : Nat) : List Bytes → Nat → Nat → List (List Bytes) → Prop where
  | last {b : Bytes} {off p : Nat} (fits : lenAt fs p + (b.length - off) ≤ nextAt fs p) :
      Frames fs [b] off p [[b.drop off]]
  | within {b b' : Bytes} {rest : List Bytes} {off p : Nat} {g : List Bytes} {gs : List (List Bytes)}
      (fits : lenAt fs p + (b.length - off) < nextAt fs p)
      (inside : ¬Boundary fs (p + (b.length - off)))
      (more : Frames fs (b' :: rest) 0 (p + (b.length - off)) (g :: gs)) :
      Frames fs (b :: b' :: rest) off p ((b.drop off :: g) :: gs)
  | fresh {b b' : Bytes} {rest : List Bytes} {off p : Nat} {gs : List (List Bytes)}
      (fits : lenAt fs p + (b.length - off) ≤ nextAt fs p)
      (start : Boundary fs (p + (b.length - off)))
      (more : Frames fs (b' :: rest) 0 (p + (b.length - off)) gs) :
      Frames fs (b :: b' :: rest) off p ([b.drop off] :: gs)
  | split {b : Bytes} {rest : List Bytes} {off sz p : Nat} {gs : List (List Bytes)}
      (fills : lenAt fs p + sz = nextAt fs p) (left : off + sz < b.length)
      (more : Frames fs (b :: rest) (off + sz) (p + sz) gs) :
      Frames fs (b :: rest) off p ([(b.drop off).take sz] :: gs)

namespace Frames

variable {fs : Nat} {iov : List Bytes} {off p : Nat} {gs : List (List Bytes)}

theorem ne_nil (frames : Frames fs iov off p gs) : gs ≠ [] := by
  cases frames <;> simp

/-- The entries hold the bytes of the buffers in their order. -/
theorem bytes (frames : Frames fs iov off p gs) : ∀ b rest, iov = b :: rest →
    (gs.map List.flatten).flatten = b.drop off ++ rest.flatten := by
  induction frames with
  | last fits =>
      intro b rest same
      injection same with first others
      subst first others
      simp
  | @within b b' rest off p g gs fits inside more ih =>
      intro first others same
      injection same with same same'
      subst same same'
      have tail := ih b' rest rfl
      simp only [List.map_cons, List.flatten_cons, List.drop_zero] at tail ⊢
      rw [List.append_assoc, tail]
  | @fresh b b' rest off p gs fits start more ih =>
      intro first others same
      injection same with same same'
      subst same same'
      have tail := ih b' rest rfl
      rw [List.map_cons, List.flatten_cons, tail]
      simp
  | @split b rest off sz p gs fills left more ih =>
      intro first others same
      injection same with same same'
      subst same same'
      rw [List.map_cons, List.flatten_cons, ih b rest rfl, ← List.append_assoc]
      simp [← List.drop_drop, List.take_append_drop]

end Frames

/-- The bytes of the entries of a datagram. -/
def bytesOf (entries : List Bytes) : Nat := entries.flatten.length

/-- Every datagram but the last is full; the first one has `space` bytes left. -/
def AllFull (fs : Nat) : Nat → List (List Bytes) → Prop
  | _, [] => True
  | _, [_] => True
  | space, g :: g' :: gs => bytesOf g = space ∧ AllFull fs (fs - mcHdrSize) (g' :: gs)

/-- No buffer fits in more space than there is. -/
def NoneOver (fs : Nat) : Nat → List (List Bytes) → Prop
  | _, [] => True
  | space, g :: gs => bytesOf g ≤ space ∧ NoneOver fs (fs - mcHdrSize) gs

/-- No empty buffer but the last one starts where a later datagram starts. -/
def Even (fs : Nat) : List Bytes → Nat → Prop
  | [], _ => True
  | b :: rest, p => (b = [] → rest ≠ [] → ¬Boundary fs p) ∧ Even fs rest (p + b.length)

instance decidableEven (fs : Nat) : (iov : List Bytes) → (p : Nat) → Decidable (Even fs iov p)
  | [], _ => isTrue trivial
  | b :: rest, p =>
      have := decidableEven fs rest (p + b.length)
      inferInstanceAs (Decidable ((b = [] → rest ≠ [] → ¬Boundary fs p) ∧ _))

/-- The last place that a buffer touches; an empty last buffer touches the end. -/
def lastPlace (iov : List Bytes) (start : Nat) : Nat :=
  if iov.getLast? = some [] then start + iov.flatten.length
  else start + iov.flatten.length - 1

theorem lastPlace_cons (b b' : Bytes) (rest : List Bytes) (start : Nat) :
    lastPlace (b :: b' :: rest) start = lastPlace (b' :: rest) (start + b.length) := by
  rw [lastPlace, lastPlace, List.getLast?_cons_cons, List.flatten_cons, List.length_append,
    Nat.add_assoc]

namespace Frames

variable {fs : Nat} {iov : List Bytes} {off p : Nat} {gs : List (List Bytes)}

/-- The offset is inside the first buffer, or the first buffer is taken from its start. -/
def Inside (iov : List Bytes) (off : Nat) : Prop :=
  ∀ b ∈ iov.head?, off = 0 ∨ off < b.length

theorem inside_zero (iov : List Bytes) : Inside iov 0 := fun _ _ => .inl rfl

theorem drop_eq_nil {b : Bytes} {rest : List Bytes} (inside : Inside (b :: rest) off)
    (none : b.length - off = 0) : b = [] ∧ off = 0 := by
  rcases inside b rfl with zero | less
  · subst zero
    exact ⟨List.length_eq_zero_iff.mp none, rfl⟩
  · omega

/-- The start of a datagram is reached by filling the one before, or by an empty buffer. -/
theorem fills_or_empty {b : Bytes} {rest : List Bytes} (header : mcHdrSize < fs)
    (inside : Inside (b :: rest) off) (fits : lenAt fs p + (b.length - off) ≤ nextAt fs p)
    (boundary : Boundary fs (p + (b.length - off))) :
    lenAt fs p + (b.length - off) = nextAt fs p ∨ (b = [] ∧ Boundary fs p) := by
  rcases Nat.lt_or_eq_of_le fits with less | fills
  · right
    obtain ⟨len, next, _⟩ := advance_within less
    obtain ⟨zero, _⟩ := (boundary_iff header _).mpr boundary
    rw [len] at zero
    obtain ⟨empty, _⟩ := drop_eq_nil inside (by omega)
    refine ⟨empty, ?_⟩
    subst empty
    simpa using boundary
  · exact .inl fills

/-- No datagram gets more bytes than it has space for. -/
theorem noneOver (frames : Frames fs iov off p gs) (header : mcHdrSize < fs) :
    NoneOver fs (nextAt fs p - lenAt fs p) gs := by
  have start : ∀ {q}, Boundary fs q → nextAt fs q - lenAt fs q = fs - mcHdrSize := by
    intro q boundary
    obtain ⟨len, next⟩ := (boundary_iff header q).mpr boundary
    rw [len, next, Nat.sub_zero]
  induction frames with
  | @last b off p fits => exact ⟨by simp [bytesOf]; omega, trivial⟩
  | @within b b' rest off p g gs fits inside more ih =>
      obtain ⟨len, next, _⟩ := advance_within fits
      rw [len, next] at ih
      obtain ⟨head, tail⟩ := ih
      refine ⟨?_, tail⟩
      rw [bytesOf] at head ⊢
      rw [List.flatten_cons, List.length_append, List.length_drop]
      omega
  | @fresh b b' rest off p gs fits boundary more ih =>
      rw [start boundary] at ih
      exact ⟨by simp [bytesOf]; omega, ih⟩
  | @split b rest off sz p gs fills left more ih =>
      rw [start (advance_full header fills).1] at ih
      refine ⟨?_, ih⟩
      simp [bytesOf]
      omega

/-- All datagrams but the last are full exactly when no empty buffer starts one before. -/
theorem allFull_iff (frames : Frames fs iov off p gs) (header : mcHdrSize < fs) :
    ∀ b rest, iov = b :: rest → Inside iov off →
      (AllFull fs (nextAt fs p - lenAt fs p) gs ↔
        (b = [] → rest ≠ [] → ¬Boundary fs p) ∧ Even fs rest (p + (b.length - off))) := by
  have space : ∀ {q}, Boundary fs q → nextAt fs q - lenAt fs q = fs - mcHdrSize := by
    intro q boundary
    obtain ⟨len, next⟩ := (boundary_iff header q).mpr boundary
    rw [len, next, Nat.sub_zero]
  induction frames with
  | last fits =>
      intro b rest same inside
      injection same with first others
      subst first others
      simp [AllFull, Even]
  | @within b b' rest off p g gs fits notStart more ih =>
      intro first others same inside
      injection same with same same'
      subst same same'
      obtain ⟨len, next, _⟩ := advance_within fits
      have tail := ih b' rest rfl (inside_zero _)
      rw [len, next, Nat.sub_zero] at tail
      have notEmpty : b = [] → b' :: rest ≠ [] → ¬Boundary fs p := by
        intro empty _ boundary
        apply notStart
        subst empty
        simpa using boundary
      have moved : AllFull fs (nextAt fs p - lenAt fs p) ((b.drop off :: g) :: gs) ↔
          AllFull fs (nextAt fs p - (lenAt fs p + (b.length - off))) (g :: gs) := by
        cases gs with
        | nil => exact Iff.rfl
        | cons g' gs =>
            simp only [AllFull, bytesOf, List.flatten_cons, List.length_append, List.length_drop]
            have room : b.length - off + g.flatten.length = nextAt fs p - lenAt fs p ↔
                g.flatten.length = nextAt fs p - (lenAt fs p + (b.length - off)) := by omega
            rw [room]
      rw [moved, tail]
      exact ⟨fun even => ⟨notEmpty, even⟩, fun even => even.2⟩
  | @fresh b b' rest off p gs fits boundary more ih =>
      intro first others same inside
      injection same with same same'
      subst same same'
      have tail := ih b' rest rfl (inside_zero _)
      rw [space boundary, Nat.sub_zero] at tail
      have unfolded : AllFull fs (nextAt fs p - lenAt fs p) ([b.drop off] :: gs) ↔
          b.length - off = nextAt fs p - lenAt fs p ∧ AllFull fs (fs - mcHdrSize) gs := by
        cases gs with
        | nil => exact absurd rfl more.ne_nil
        | cons g gs => simp [AllFull, bytesOf]
      rw [unfolded, tail]
      have less := lenAt_lt header p
      have full : b.length - off = nextAt fs p - lenAt fs p ↔
          (b = [] → b' :: rest ≠ [] → ¬Boundary fs p) := by
        constructor
        · intro fills empty
          subst empty
          simp at fills
          omega
        · intro notEmpty
          rcases fills_or_empty header inside fits boundary with fills | ⟨empty, boundary⟩
          · omega
          · exact absurd boundary (notEmpty empty (by simp))
      rw [full]
      exact Iff.rfl
  | @split b rest off sz p gs fills left more ih =>
      intro first others same inside
      injection same with same same'
      subst same same'
      have tail := ih b rest rfl (by intro c member; cases member; exact .inr left)
      rw [space (advance_full header fills).1] at tail
      have notEmpty : ∀ q, b = [] → rest ≠ [] → ¬Boundary fs q := by
        intro q empty
        subst empty
        simp at left
      have unfolded : AllFull fs (nextAt fs p - lenAt fs p) ([(b.drop off).take sz] :: gs) ↔
          AllFull fs (fs - mcHdrSize) gs := by
        cases gs with
        | nil => exact absurd rfl more.ne_nil
        | cons g gs =>
            simp only [AllFull, bytesOf, List.flatten_cons, List.flatten_nil, List.append_nil,
              List.length_take, List.length_drop]
            have full : min sz (b.length - off) = nextAt fs p - lenAt fs p := by omega
            simp [full]
      rw [unfolded, tail, show p + sz + (b.length - (off + sz)) = p + (b.length - off) by omega]
      exact ⟨fun even => ⟨notEmpty p, even.2⟩, fun even => ⟨notEmpty _, even.2⟩⟩

/-- The number of datagrams is told by the last place that a buffer touches. -/
theorem count (frames : Frames fs iov off p gs) (header : mcHdrSize < fs) :
    ∀ b rest, iov = b :: rest → Inside iov off →
      ((b = [] → rest ≠ [] → ¬Boundary fs p) ∧ Even fs rest (p + (b.length - off))) →
      frameOf fs p + gs.length =
        frameOf fs (lastPlace (b.drop off :: rest) p) + 1 := by
  induction frames with
  | @last b off p fits =>
      intro first others same inside _
      injection same with same same'
      subst same same'
      rw [lastPlace]
      simp only [List.getLast?_singleton, List.flatten_singleton, List.length_singleton,
        List.length_drop]
      have less := lenAt_lt header p
      split
      · rename_i empty
        injection empty with empty
        have none : b.length - off = 0 := by rw [← List.length_drop, empty]; rfl
        simp [none]
      · rename_i nonempty
        have some : b.length - off ≠ 0 := by
          intro none
          apply nonempty
          rw [List.drop_eq_nil_of_le (by omega)]
        have before : lenAt fs p + (b.length - off - 1) < nextAt fs p := by omega
        obtain ⟨_, _, same⟩ := advance_within before
        rw [← Nat.add_sub_assoc (by omega)] at same
        rw [same]
  | @within b b' rest off p g gs fits notStart more ih =>
      intro first others same inside even
      injection same with same same'
      subst same same'
      obtain ⟨_, _, here⟩ := advance_within fits
      have tail := ih b' rest rfl (inside_zero _) (by simpa [Even] using even.2)
      rw [lastPlace_cons, List.length_drop]
      rw [here, List.drop_zero] at tail
      simpa using tail
  | @fresh b b' rest off p gs fits boundary more ih =>
      intro first others same inside even
      injection same with same same'
      subst same same'
      have tail := ih b' rest rfl (inside_zero _) (by simpa [Even] using even.2)
      have fills : lenAt fs p + (b.length - off) = nextAt fs p := by
        rcases fills_or_empty header inside fits boundary with fills | ⟨empty, boundary⟩
        · exact fills
        · exact absurd boundary (even.1 empty (by simp))
      obtain ⟨_, here⟩ := advance_full header fills
      rw [lastPlace_cons, List.length_drop]
      rw [here, List.drop_zero] at tail
      rw [← tail, List.length_cons]
      omega
  | @split b rest off sz p gs fills left more ih =>
      intro first others same inside even
      injection same with same same'
      subst same same'
      have notEmpty : b = [] → rest ≠ [] → ¬Boundary fs (p + sz) := by
        intro empty
        subst empty
        simp at left
      have tail := ih b rest rfl (by intro c member; cases member; exact .inr left)
        ⟨notEmpty, by
          rw [show p + sz + (b.length - (off + sz)) = p + (b.length - off) by omega]
          exact even.2⟩
      obtain ⟨_, here⟩ := advance_full header fills
      have place : lastPlace (b.drop (off + sz) :: rest) (p + sz) =
          lastPlace (b.drop off :: rest) p := by
        cases rest with
        | nil =>
            have some : ∀ n, n < b.length → b.drop n ≠ [] := by
              intro n less empty
              rw [List.drop_eq_nil_iff] at empty
              omega
            rw [lastPlace, lastPlace]
            simp only [List.getLast?_singleton, Option.some.injEq, some off (by omega),
              some (off + sz) left, if_false, List.flatten_singleton, List.length_drop]
            omega
        | cons b' rest =>
            rw [lastPlace_cons, lastPlace_cons, List.length_drop, List.length_drop]
            congr 1
            omega
      rw [place, here] at tail
      rw [← tail, List.length_cons]
      omega

end Frames

end Raids.Memcached
