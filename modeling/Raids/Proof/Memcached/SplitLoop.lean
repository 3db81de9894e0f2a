import Raids.Proof.Memcached.Segment

namespace Raids.Memcached
open BigEndian

/-- The entries that a step adds in front of the later ones. -/
def addEntry (fs len next : Nat) (entry : Bytes) (later : List Bytes × List (List Bytes)) :
    List Bytes × List (List Bytes) :=
  if len = 0 ∧ next = fs - mcHdrSize then ([], (entry :: later.1) :: later.2)
  else (entry :: later.1, later.2)

theorem splitLoop_nil (fs fuel off len next : Nat) :
    splitLoop fs fuel [] off len next = some ([], []) := by
  cases fuel <;> rfl

theorem splitLoop_cons (fs fuel : Nat) (b : Bytes) (rest : List Bytes) (off len next : Nat) :
    splitLoop fs (fuel + 1) (b :: rest) off len next =
      if b.length - off + len < next then
        (splitLoop fs fuel rest 0 (len + (b.length - off)) next).map
          (addEntry fs len next (b.drop off))
      else if b.length = (off + (next - len)) % 2 ^ 32 then
        (splitLoop fs fuel rest 0 0 (fs - mcHdrSize)).map
          (addEntry fs len next ((b.drop off).take (next - len)))
      else
        (splitLoop fs fuel (b :: rest) ((off + (next - len)) % 2 ^ 32) 0 (fs - mcHdrSize)).map
          (addEntry fs len next ((b.drop off).take (next - len))) := by
  have whole : (b.drop off).take (b.length - off) = b.drop off := by
    rw [← List.length_drop, List.take_length]
  conv_lhs => rw [splitLoop]
  simp only [whole]
  rfl

/-- The datagrams from a state on: a state at a boundary opens a new one. -/
def framesFrom (fs len next : Nat) (res : List Bytes × List (List Bytes)) : List (List Bytes) :=
  if len = 0 ∧ next = fs - mcHdrSize then res.2 else res.1 :: res.2

theorem framesFrom_addEntry (fs len next : Nat) (entry : Bytes)
    (later : List Bytes × List (List Bytes)) :
    framesFrom fs len next (addEntry fs len next entry later) =
      (entry :: later.1) :: later.2 := by
  rw [framesFrom, addEntry]
  split <;> rfl

theorem addEntry_fresh {fs len next : Nat} (fresh : len = 0 ∧ next = fs - mcHdrSize)
    (entry : Bytes) (later : List Bytes × List (List Bytes)) :
    (addEntry fs len next entry later).1 = [] := by
  rw [addEntry, if_pos fresh]

section Loop

variable {fs : Nat}

/-- A result of the loop at a boundary has nothing for the datagram before. -/
theorem splitLoop_fresh {fuel : Nat} {b : Bytes} {rest : List Bytes} {off len next : Nat}
    {res : List Bytes × List (List Bytes)} (fresh : len = 0 ∧ next = fs - mcHdrSize)
    (done : splitLoop fs fuel (b :: rest) off len next = some res) : res.1 = [] := by
  cases fuel with
  | zero => cases done
  | succ fuel =>
      rw [splitLoop_cons] at done
      split at done
      · obtain ⟨later, _, same⟩ := Option.map_eq_some_iff.mp done
        rw [← same, addEntry_fresh fresh]
      · split at done
        · obtain ⟨later, _, same⟩ := Option.map_eq_some_iff.mp done
          rw [← same, addEntry_fresh fresh]
        · obtain ⟨later, _, same⟩ := Option.map_eq_some_iff.mp done
          rw [← same, addEntry_fresh fresh]

variable (header : mcHdrSize < fs)
include header

/-- The loop makes the frames of its state when no buffer is too long for its offset. -/
theorem splitLoop_frames {fuel : Nat} {b : Bytes} {rest : List Bytes} {off p : Nat}
    {res : List Bytes × List (List Bytes)} (small : ∀ c ∈ b :: rest, c.length < 2 ^ 32)
    (inside : Frames.Inside (b :: rest) off)
    (done : splitLoop fs fuel (b :: rest) off (lenAt fs p) (nextAt fs p) = some res) :
    Frames fs (b :: rest) off p (framesFrom fs (lenAt fs p) (nextAt fs p) res) := by
  induction fuel generalizing b rest off p res with
  | zero => cases done
  | succ fuel ih =>
      have bound := small b (by simp)
      have place : off ≤ b.length := by
        rcases inside b rfl with zero | less <;> omega
      have less := lenAt_lt header p
      have next : ∀ {q : Nat} {later : List Bytes × List (List Bytes)} {rest : List Bytes},
          (∀ c ∈ rest, c.length < 2 ^ 32) → lenAt fs p + (b.length - off) ≤ nextAt fs p →
          q = p + (b.length - off) →
          splitLoop fs fuel rest 0 (lenAt fs q) (nextAt fs q) = some later →
          Frames fs (b :: rest) off p ((b.drop off :: later.1) :: later.2) := by
        intro q later rest small fits same more
        subst same
        cases rest with
        | nil =>
            rw [splitLoop_nil] at more
            injection more with same
            subst same
            exact .last fits
        | cons b' rest =>
            have frames := ih small (Frames.inside_zero _) more
            by_cases boundary : Boundary fs (p + (b.length - off))
            · have fresh := (boundary_iff header _).mpr boundary
              rw [framesFrom, if_pos fresh] at frames
              rw [splitLoop_fresh fresh more]
              exact .fresh fits boundary frames
            · rw [framesFrom, if_neg fun fresh => boundary ((boundary_iff header _).mp fresh)]
                at frames
              have notFull : lenAt fs p + (b.length - off) < nextAt fs p := by
                rcases Nat.lt_or_eq_of_le fits with less | full
                · exact less
                · exact absurd (advance_full header full).1 boundary
              exact .within notFull boundary frames
      rw [splitLoop_cons] at done
      split at done
      · rename_i packs
        have fits : lenAt fs p + (b.length - off) < nextAt fs p := by omega
        obtain ⟨len, next', _⟩ := advance_within fits
        obtain ⟨later, more, same⟩ := Option.map_eq_some_iff.mp done
        rw [← same, framesFrom_addEntry]
        rw [← len, ← next'] at more
        exact next (fun c member => small c (by simp [member])) (Nat.le_of_lt fits) rfl more
      · rename_i fills
        have whole : lenAt fs p + (nextAt fs p - lenAt fs p) = nextAt fs p := by omega
        obtain ⟨boundary, _⟩ := advance_full header whole
        obtain ⟨len, next'⟩ := (boundary_iff header _).mpr boundary
        have noWrap : (off + (nextAt fs p - lenAt fs p)) % 2 ^ 32 =
            off + (nextAt fs p - lenAt fs p) := Nat.mod_eq_of_lt (by omega)
        rw [noWrap] at done
        split at done
        · rename_i ends
          obtain ⟨later, more, same⟩ := Option.map_eq_some_iff.mp done
          have size : nextAt fs p - lenAt fs p = b.length - off := by omega
          have all : (b.drop off).take (nextAt fs p - lenAt fs p) = b.drop off := by
            rw [size, ← List.length_drop, List.take_length]
          have more' : splitLoop fs fuel rest 0 (lenAt fs (p + (nextAt fs p - lenAt fs p)))
              (nextAt fs (p + (nextAt fs p - lenAt fs p))) = some later := by
            rw [len, next']
            exact more
          rw [← same, framesFrom_addEntry, all]
          exact next (fun c member => small c (by simp [member])) (by omega) (by rw [size]) more'
        · rename_i stays
          obtain ⟨later, more, same⟩ := Option.map_eq_some_iff.mp done
          have left : off + (nextAt fs p - lenAt fs p) < b.length := by omega
          have more' : splitLoop fs fuel (b :: rest) (off + (nextAt fs p - lenAt fs p))
              (lenAt fs (p + (nextAt fs p - lenAt fs p)))
              (nextAt fs (p + (nextAt fs p - lenAt fs p))) = some later := by
            rw [len, next']
            exact more
          rw [← same, framesFrom_addEntry, splitLoop_fresh ⟨rfl, rfl⟩ more]
          have frames := ih small (by intro c member; cases member; exact .inr left) more'
          rw [framesFrom, if_pos ((boundary_iff header _).mpr boundary)] at frames
          exact .split whole left frames

/-- Enough steps lead to a result when no buffer is too long for its offset. -/
theorem splitLoop_total {fuel : Nat} {iov : List Bytes} {off len next : Nat}
    (small : ∀ c ∈ iov, c.length < 2 ^ 32) (less : len < next)
    (inside : ∀ b ∈ iov.head?, off ≤ b.length)
    (enough : iov.length + (iov.flatten.length - off) ≤ fuel) :
    ∃ res, splitLoop fs fuel iov off len next = some res := by
  rw [mcHdrSize] at header
  have room : 0 < fs - mcHdrSize := by
    rw [mcHdrSize]
    omega
  induction fuel generalizing iov off len next with
  | zero =>
      cases iov with
      | nil => exact ⟨_, rfl⟩
      | cons b rest =>
          rw [List.length_cons] at enough
          omega
  | succ fuel ih =>
      cases iov with
      | nil => exact ⟨_, rfl⟩
      | cons b rest =>
          have bound := small b (by simp)
          have place := inside b rfl
          rw [List.length_cons, List.flatten_cons, List.length_append] at enough
          have smaller : ∀ c ∈ rest, c.length < 2 ^ 32 := fun c member => small c (by simp [member])
          rw [splitLoop_cons]
          split
          · have less' : len + (b.length - off) < next := by omega
            obtain ⟨res, done⟩ := ih smaller less' (fun _ _ => Nat.zero_le _) (by omega)
            exact ⟨_, by rw [done]; rfl⟩
          · have noWrap : (off + (next - len)) % 2 ^ 32 = off + (next - len) :=
              Nat.mod_eq_of_lt (by omega)
            rw [noWrap]
            split
            · obtain ⟨res, done⟩ := ih smaller room (fun _ _ => Nat.zero_le _) (by omega)
              exact ⟨_, by rw [done]; rfl⟩
            · have inside' : ∀ c ∈ (b :: rest).head?, off + (next - len) ≤ c.length := by
                intro c member
                cases member
                omega
              have enough' : (b :: rest).length + ((b :: rest).flatten.length -
                  (off + (next - len))) ≤ fuel := by
                rw [List.length_cons, List.flatten_cons, List.length_append]
                omega
              obtain ⟨res, done⟩ := ih small room inside' enough'
              exact ⟨_, by rw [done]; rfl⟩

omit header in
/-- A result with few datagrams has no buffer that is too long for its offset. -/
theorem splitLoop_bounded {fuel : Nat} {iov : List Bytes} {off len next : Nat}
    {res : List Bytes × List (List Bytes)} (less : next ≤ fs)
    (done : splitLoop fs fuel iov off len next = some res)
    (few : off + (framesFrom fs len next res).length * fs < 2 ^ 32) :
    ∀ c ∈ iov, c.length < 2 ^ 32 := by
  induction fuel generalizing iov off len next res with
  | zero =>
      cases iov with
      | nil => simp
      | cons b rest => cases done
  | succ fuel ih =>
      cases iov with
      | nil => simp
      | cons b rest =>
          have later_le : ∀ (len next : Nat) (later : List Bytes × List (List Bytes)),
              (framesFrom fs len next later).length ≤ later.2.length + 1 := by
            intro len next later
            rw [framesFrom]
            split
            · exact Nat.le_succ _
            · exact Nat.le_refl _
          have fresh : ∀ (later : List Bytes × List (List Bytes)),
              framesFrom fs 0 (fs - mcHdrSize) later = later.2 := fun later => if_pos ⟨rfl, rfl⟩
          rw [splitLoop_cons] at done
          split at done
          · rename_i packs
            obtain ⟨later, more, same⟩ := Option.map_eq_some_iff.mp done
            rw [← same, framesFrom_addEntry, List.length_cons, Nat.succ_mul] at few
            have fewer := Nat.mul_le_mul_right fs
              (later_le (len + (b.length - off)) next later)
            rw [Nat.succ_mul] at fewer
            have tail := ih less more (by omega)
            intro c member
            rcases List.mem_cons.mp member with first | other
            · rw [first]
              omega
            · exact tail c other
          · rename_i fills
            have small : (off + (next - len)) % 2 ^ 32 = off + (next - len) ∨
                2 ^ 32 ≤ off + fs := by
              by_cases fits : off + (next - len) < 2 ^ 32
              · exact .inl (Nat.mod_eq_of_lt fits)
              · right
                omega
            split at done
            · rename_i ends
              obtain ⟨later, more, same⟩ := Option.map_eq_some_iff.mp done
              rw [← same, framesFrom_addEntry, List.length_cons, Nat.succ_mul] at few
              have tail := ih (Nat.sub_le _ _) more (by rw [fresh]; omega)
              intro c member
              rcases List.mem_cons.mp member with first | other
              · rw [first, ends]
                exact Nat.mod_lt _ (by decide)
              · exact tail c other
            · obtain ⟨later, more, same⟩ := Option.map_eq_some_iff.mp done
              rw [← same, framesFrom_addEntry, List.length_cons, Nat.succ_mul] at few
              rcases small with noWrap | wraps
              · rw [noWrap] at more
                exact ih (Nat.sub_le _ _) more (by rw [fresh]; omega)
              · omega

omit header in
/-- The first pass counts what the second pass writes. -/
theorem countLoop_eq (fuel : Nat) (iov : List Bytes) (off len next : Nat) (c : FrameCount) :
    countLoop fs fuel iov off len next c = (splitLoop fs fuel iov off len next).map fun res =>
      ⟨c.outNmsgs + res.2.length, c.iovCnt + entryCount res,
        c.needSplit || !res.2.isEmpty⟩ := by
  have added : ∀ (len next : Nat) (entry : Bytes) (c : FrameCount)
      (later : List Bytes × List (List Bytes)),
      let c' := if len = 0 ∧ next = fs - mcHdrSize then
        { c with outNmsgs := c.outNmsgs + 1, iovCnt := c.iovCnt + 1, needSplit := true } else c
      let res := addEntry fs len next entry later
      (⟨c'.outNmsgs + later.2.length, c'.iovCnt + 1 + entryCount later,
        c'.needSplit || !later.2.isEmpty⟩ : FrameCount) =
      ⟨c.outNmsgs + res.2.length, c.iovCnt + entryCount res, c.needSplit || !res.2.isEmpty⟩ := by
    intro len next entry c later
    dsimp only
    rw [addEntry]
    split
    · simp only [entryCount, List.length_cons, List.length_nil, List.map_cons, List.sum_cons,
        List.isEmpty_cons, Bool.not_false, Bool.or_true, Bool.true_or, FrameCount.mk.injEq,
        and_true]
      omega
    · simp only [entryCount, List.length_cons, FrameCount.mk.injEq, and_true, true_and]
      omega
  induction fuel generalizing iov off len next c with
  | zero =>
      cases iov with
      | nil => simp [countLoop, splitLoop, entryCount]
      | cons b rest => rfl
  | succ fuel ih =>
      cases iov with
      | nil => simp [countLoop, splitLoop, entryCount]
      | cons b rest =>
          rw [splitLoop_cons, countLoop]
          split
          · rw [ih, Option.map_map]
            congr 1
            funext later
            exact added len next _ c later
          · dsimp only
            split
            · rw [ih, Option.map_map]
              congr 1
              funext later
              exact added len next _ c later
            · rw [ih, Option.map_map]
              congr 1
              funext later
              exact added len next _ c later

end Loop

end Raids.Memcached
