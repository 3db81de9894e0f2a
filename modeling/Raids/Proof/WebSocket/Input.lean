import Raids.Construction.WebSocket.Input
import Raids.Proof.Msg.Chunk
import Raids.Proof.Msg.JsonChunk
import Raids.Proof.WebSocket.Frame

namespace Raids
open BigEndian Decimal IncrementalParser

section Mask

variable (mask : UInt32)

/-- The byte of the mask at a place of the payload. -/
def maskAt (i : Nat) : UInt8 := (maskBytes mask).getD (i % 4) 0

theorem maskAt_block (i : Nat) : maskAt mask (i + 64) = maskAt mask i := by
  rw [maskAt, maskAt, show (i + 64) % 4 = i % 4 by omega]

theorem mask_words :
    (List.replicate 16 (maskBytes mask)).flatten = (List.range 64).map (maskAt mask) := by
  have four : (maskBytes mask).length = 4 := by
    rw [maskBytes, List.length_reverse, length_digits]
  obtain ⟨a, b, c, d, bytes⟩ := List.length_eq_four.mp four
  unfold maskAt
  rw [bytes]
  rfl

theorem maskBlock_eq {block : Bytes} (small : block.length ≤ 64) :
    maskBlock mask block = block.mapIdx fun i c => c ^^^ maskAt mask i := by
  rw [maskBlock, mask_words]
  apply List.ext_getElem
  · simp
    omega
  · intro i first second
    simp

/-- The words of the mask are its bytes over and over. -/
theorem applyMask_eq (p : Bytes) :
    applyMask mask p = p.mapIdx fun i c => c ^^^ maskAt mask i := by
  suffices all : ∀ fuel, p.length < fuel →
      applyMaskFuel mask fuel p = p.mapIdx fun i c => c ^^^ maskAt mask i from
    all _ (Nat.lt_succ_self _)
  intro fuel enough
  induction fuel generalizing p with
  | zero => omega
  | succ fuel ih =>
      rw [applyMaskFuel]
      split
      · rename_i block
        have behind := ih (p.drop 64) (by rw [List.length_drop]; omega)
        rw [maskBlock_eq mask (by simp), behind]
        have split := List.take_append_drop 64 p
        conv_rhs => rw [← split, List.mapIdx_append]
        have sixtyFour : (p.take 64).length = 64 := by rw [List.length_take]; omega
        simp only [sixtyFour, maskAt_block]
      · rename_i short
        exact maskBlock_eq mask (by omega)

/-- A mask that is applied twice is gone. -/
theorem applyMask_mapIdx (p : Bytes) :
    applyMask mask (p.mapIdx fun i c => c ^^^ maskAt mask i) = p := by
  rw [applyMask_eq]
  apply List.ext_getElem
  · simp
  · intro i first second
    simp [UInt8.xor_assoc]

end Mask

section Loop

variable {mem : JsonMem}

theorem processWsmsg_nil : processWsmsg mem [] = ([], []) := rfl

/-- A command of the loop takes some bytes of the buffer. -/
theorem readCommand_within {c : UInt8} {rest : Bytes} {m : RedisMsg} {size : Nat}
    (read : readCommand mem c rest = .ok (m, size)) : 0 < size ∧ size ≤ (c :: rest).length := by
  unfold readCommand at read
  split at read
  · obtain ⟨positive, bound, -⟩ := (unpackJson_append (c :: rest) []).1 m size read
    exact ⟨positive, bound⟩
  · exact (stableAt_unpack mem.wrk (c :: rest)).within read

theorem processWsmsgFuel_enough {fuel : Nat} {p : Bytes} (enough : p.length ≤ fuel) :
    processWsmsgFuel mem fuel p = processWsmsg mem p := by
  suffices same : ∀ (first second : Nat) (p : Bytes), p.length ≤ first → p.length ≤ second →
      processWsmsgFuel mem first p = processWsmsgFuel mem second p from same _ _ _ enough le_rfl
  intro first
  induction first with
  | zero =>
      intro second p empty _
      obtain rfl := List.length_eq_zero_iff.mp (Nat.le_zero.mp empty)
      cases second <;> rfl
  | succ first ih =>
      intro second p fits fits'
      cases p with
      | nil => cases second <;> rfl
      | cons c rest =>
          rw [List.length_cons] at fits fits'
          obtain ⟨second, rfl⟩ : ∃ less, second = less + 1 := ⟨second - 1, by omega⟩
          rw [processWsmsgFuel, processWsmsgFuel]
          rw [ih second rest (by omega) (by omega)]
          split
          · rfl
          · split
            · rfl
            · rfl
            · rename_i m size read
              obtain ⟨positive, bound⟩ := readCommand_within read
              have shorter : ((c :: rest).drop size).length ≤ rest.length := by
                rw [List.length_drop, List.length_cons]
                omega
              rw [ih second _ (by omega) (by omega)]

variable {c : UInt8} {rest : Bytes}

theorem processWsmsg_blank (blank : isBlank c = true) (rest : Bytes) :
    processWsmsg mem (c :: rest) = processWsmsg mem rest := by
  show (if isBlank c = true then processWsmsgFuel mem rest.length rest else _) = _
  rw [if_pos blank, processWsmsgFuel_enough le_rfl]

theorem processWsmsg_unfinished (other : isBlank c = false)
    (read : readCommand mem c rest = .error .partialValue) :
    processWsmsg mem (c :: rest) = ([], c :: rest) := by
  show (if isBlank c = true then _ else _) = _
  rw [if_neg (ne_true_of_eq_false other), read]

theorem processWsmsg_error (other : isBlank c = false) {status : RedisMsgStatus}
    (read : readCommand mem c rest = .error status) (isError : status ≠ .partialValue) :
    processWsmsg mem (c :: rest) = ([.error status], []) := by
  show (if isBlank c = true then _ else _) = _
  rw [if_neg (ne_true_of_eq_false other), read]
  cases status <;> first | rfl | exact absurd rfl isError

theorem processWsmsg_command (other : isBlank c = false) {m : RedisMsg} {size : Nat}
    (read : readCommand mem c rest = .ok (m, size)) :
    processWsmsg mem (c :: rest) =
      (.message m :: (processWsmsg mem ((c :: rest).drop size)).1,
        (processWsmsg mem ((c :: rest).drop size)).2) := by
  obtain ⟨positive, bound⟩ := readCommand_within read
  have shorter : ((c :: rest).drop size).length ≤ rest.length := by
    rw [List.length_drop, List.length_cons]
    omega
  show (if isBlank c = true then _ else _) = _
  rw [if_neg (ne_true_of_eq_false other), read]
  simp only
  rw [processWsmsgFuel_enough shorter]

/-- The cases of one round are the cases of the loop. -/
theorem processWsmsg_induction {motive : Bytes → Prop} (nil : motive [])
    (blank : ∀ c rest, isBlank c = true → motive rest → motive (c :: rest))
    (stop : ∀ c rest status, isBlank c = false → readCommand mem c rest = .error status →
      motive (c :: rest))
    (command : ∀ c rest m size, isBlank c = false → readCommand mem c rest = .ok (m, size) →
      motive ((c :: rest).drop size) → motive (c :: rest)) (p : Bytes) : motive p := by
  induction length : p.length using Nat.strong_induction_on generalizing p with
  | _ length ih =>
      subst length
      cases p with
      | nil => exact nil
      | cons c rest =>
          cases other : isBlank c with
          | true => exact blank c rest other (ih _ (Nat.lt_succ_self _) _ rfl)
          | false =>
              cases read : readCommand mem c rest with
              | error status => exact stop c rest status other read
              | ok pair =>
                  obtain ⟨m, size⟩ := pair
                  obtain ⟨positive, bound⟩ := readCommand_within read
                  apply command c rest m size other read
                  apply ih _ _ _ rfl
                  rw [List.length_drop, List.length_cons]
                  omega

/-- The loop leaves nothing that it would take. -/
theorem processWsmsg_pending (p : Bytes) :
    processWsmsg mem (processWsmsg mem p).2 = ([], (processWsmsg mem p).2) := by
  induction p using processWsmsg_induction with
  | nil => rfl
  | blank c rest blank ih => rwa [processWsmsg_blank blank]
  | stop c rest status other read =>
      by_cases isError : status = .partialValue
      · subst isError
        rw [processWsmsg_unfinished other read, processWsmsg_unfinished other read]
      · rw [processWsmsg_error other read isError]
        rfl
  | command c rest m size other read ih => rwa [processWsmsg_command other read]

end Loop

section Cut

/-- The data at which the loop looks in its last round. -/
def lastRoundFuel (mem : JsonMem) : Nat → Bytes → Bytes
  | fuel + 1, c :: rest =>
      if isBlank c then lastRoundFuel mem fuel rest
      else
        match readCommand mem c rest with
        | .error _ => c :: rest
        | .ok (_, size) =>
            if size = rest.length + 1 then c :: rest
            else lastRoundFuel mem fuel ((c :: rest).drop size)
  | _, p => p

def lastRound (mem : JsonMem) (p : Bytes) : Bytes := lastRoundFuel mem p.length p

/-- The data is JSON and cut inside a number on its own, which goes on, or inside the digits of an
escape, or inside a word. -/
def CutAt (p more : Bytes) : Prop :=
  (∃ c ∈ p.head?, startsJson c = true) ∧
    ((∀ c ∈ p, IsDigit c) ∧ (∃ c ∈ more.head?, IsDigit c) ∨
      (JsonLex.plain.run p).Cut ∧ more ≠ [])

instance (p more : Bytes) : Decidable (CutAt p more) :=
  have : Decidable (∀ c ∈ p, IsDigit c) := List.decidableBAll IsDigit p
  inferInstanceAs (Decidable (_ ∧ _))

variable {mem : JsonMem} {c : UInt8} {rest : Bytes}

theorem lastRoundFuel_enough {fuel : Nat} {p : Bytes} (enough : p.length ≤ fuel) :
    lastRoundFuel mem fuel p = lastRound mem p := by
  suffices same : ∀ (first second : Nat) (p : Bytes), p.length ≤ first → p.length ≤ second →
      lastRoundFuel mem first p = lastRoundFuel mem second p from same _ _ _ enough le_rfl
  intro first
  induction first with
  | zero =>
      intro second p empty _
      obtain rfl := List.length_eq_zero_iff.mp (Nat.le_zero.mp empty)
      cases second <;> rfl
  | succ first ih =>
      intro second p fits fits'
      cases p with
      | nil => cases second <;> rfl
      | cons c rest =>
          rw [List.length_cons] at fits fits'
          obtain ⟨second, rfl⟩ : ∃ less, second = less + 1 := ⟨second - 1, by omega⟩
          rw [lastRoundFuel, lastRoundFuel]
          rw [ih second rest (by omega) (by omega)]
          split
          · rfl
          · split
            · rfl
            · rename_i m size read
              obtain ⟨positive, bound⟩ := readCommand_within read
              have shorter : ((c :: rest).drop size).length ≤ rest.length := by
                rw [List.length_drop, List.length_cons]
                omega
              rw [ih second _ (by omega) (by omega)]

theorem lastRound_blank (blank : isBlank c = true) (rest : Bytes) :
    lastRound mem (c :: rest) = lastRound mem rest := by
  show (if isBlank c = true then lastRoundFuel mem rest.length rest else _) = _
  rw [if_pos blank, lastRoundFuel_enough le_rfl]

theorem lastRound_error (other : isBlank c = false) {status : RedisMsgStatus}
    (read : readCommand mem c rest = .error status) :
    lastRound mem (c :: rest) = c :: rest := by
  show (if isBlank c = true then _ else _) = _
  rw [if_neg (ne_true_of_eq_false other), read]

theorem lastRound_command (other : isBlank c = false) {m : RedisMsg} {size : Nat}
    (read : readCommand mem c rest = .ok (m, size)) :
    lastRound mem (c :: rest) =
      if size = rest.length + 1 then c :: rest else lastRound mem ((c :: rest).drop size) := by
  obtain ⟨positive, bound⟩ := readCommand_within read
  have shorter : ((c :: rest).drop size).length ≤ rest.length := by
    rw [List.length_drop, List.length_cons]
    omega
  show (if isBlank c = true then _ else _) = _
  rw [if_neg (ne_true_of_eq_false other), read]
  simp only
  rw [lastRoundFuel_enough shorter]

/-- Digits on their own are one number, also in front of something else. -/
theorem unpackJson_digits {p : Bytes} (digits : ∀ c ∈ p, IsDigit c) (nonempty : p ≠ [])
    {more : Bytes} (ends : NoDigit more) :
    unpackJson mem (p ++ more) = .ok ((parseNumber p).1, p.length) := by
  obtain ⟨c, tail, rfl⟩ := List.exists_cons_of_ne_nil nonempty
  have digit := digits c List.mem_cons_self
  have number : ∀ behind : Bytes, NoDigit behind →
      parseNumber (c :: tail ++ behind) = ((parseNumber (c :: tail)).1, behind) := by
    intro behind stops
    have other : c ≠ minus := by
      rintro rfl
      exact minus_not_digit digit
    have head : ∀ text, ((c :: text).head? == some minus) = false := by
      intro text
      simp [other]
    obtain ⟨taken, dropped⟩ := takeWhile_digits digits stops
    have noDigit : NoDigit [] := fun _ empty => nomatch empty
    obtain ⟨taken', -⟩ := takeWhile_digits digits noDigit
    rw [List.append_nil] at taken'
    rw [List.cons_append] at taken dropped ⊢
    simp only [parseNumber, head, Bool.false_eq_true, if_false, taken, taken', dropped]
  unfold unpackJson
  rw [List.cons_append, parseJson_number (.inl digit), ← List.cons_append, number more ends]
  have size : (c :: tail ++ more).length - more.length = (c :: tail).length := by
    rw [List.length_append, Nat.add_sub_cancel_right]
  exact congrArg (fun size => Except.ok ((parseNumber (c :: tail)).1, size)) size

/-- A byte that starts a text is no white space and no sign. -/
theorem plain_of_startsJson (starts : startsJson c = true) : ¬JsonSpace c ∧ c ≠ minus := by
  simp only [startsJson, Bool.or_eq_true, Bool.and_eq_true, decide_eq_true_eq] at starts
  rcases starts with ((rfl | rfl) | rfl) | ⟨low, high⟩
  · decide
  · decide
  · decide
  · constructor
    · rintro (rfl | ⟨-, small⟩)
      · exact absurd low (by decide)
      · exact absurd (UInt8.le_trans low small) (by decide)
    · rintro rfl
      exact absurd low (by decide)

/-- A command that is read from a buffer which is not cut stays when the buffer grows; it may take
a longer line end. -/
theorem readCommand_append {m : RedisMsg} {size : Nat}
    (read : readCommand mem c rest = .ok (m, size)) {more : Bytes}
    (whole : size = rest.length + 1 → ¬CutAt (c :: rest) more) :
    ∃ term behind, (c :: rest).drop size ++ more = term ++ behind ∧ LineEnd term ∧
      readCommand mem c (rest ++ more) = .ok (m, size + term.length) := by
  unfold readCommand at read ⊢
  by_cases json : startsJson c = true
  · rw [if_pos json] at read ⊢
    refine ⟨[], _, rfl, .none, ?_⟩
    obtain ⟨-, -, answer⟩ := (unpackJson_append (c :: rest) more).1 m size read
    rcases answer with ⟨all, number⟩ | longer
    · obtain ⟨notSpace, notMinus⟩ := plain_of_startsJson json
      rw [eatWhite_cons notSpace] at number
      obtain ⟨d, tail, same, start, digits⟩ := number
      obtain ⟨rfl, rfl⟩ := List.cons.inj same
      have every : ∀ d ∈ c :: rest, IsDigit d := by
        intro d member
        rcases List.mem_cons.mp member with rfl | behind
        · exact start.resolve_right notMinus
        · exact digits d behind
      have ends : NoDigit more := by
        intro d first digit
        exact whole all ⟨⟨c, rfl, json⟩, Or.inl ⟨every, d, first, digit⟩⟩
      have noDigit : NoDigit [] := fun _ empty => nomatch empty
      have now : unpackJson mem (c :: rest ++ []) = _ :=
        unpackJson_digits every (by simp) noDigit
      rw [List.append_nil, read] at now
      obtain ⟨rfl, rfl⟩ := Prod.mk.inj (Except.ok.inj now)
      exact unpackJson_digits every (by simp) ends
    · exact longer
  · rw [if_neg json] at read ⊢
    obtain ⟨term, behind, split, lineEnd, -, longer⟩ :=
      (stableAt_unpack mem.wrk (c :: rest)).longer more read
    exact ⟨term, behind, split, lineEnd, longer⟩

/-- An error of a buffer that is not cut stays when the buffer grows. -/
theorem readCommand_error {status : RedisMsgStatus}
    (read : readCommand mem c rest = .error status) (isError : status ≠ .partialValue)
    {more : Bytes} (whole : ¬CutAt (c :: rest) more) :
    readCommand mem c (rest ++ more) = .error status := by
  unfold readCommand at read ⊢
  by_cases json : startsJson c = true
  · rw [if_pos json] at read ⊢
    by_cases last : more = []
    · rw [last, List.append_nil]
      exact read
    · apply (unpackJson_append (c :: rest) more).2 status read isError
      intro cut
      exact whole ⟨⟨c, rfl, json⟩, Or.inr ⟨cut, last⟩⟩
  · rw [if_neg json] at read ⊢
    exact (stableAt_unpack mem.wrk (c :: rest)).fails more read isError

/-- A line end in front of the buffer is eaten. -/
theorem processWsmsg_lineEnd {term : Bytes} (lineEnd : LineEnd term) (p : Bytes) :
    processWsmsg mem (term ++ p) = processWsmsg mem p := by
  cases lineEnd with
  | none => rfl
  | cr => exact processWsmsg_blank (by decide) p
  | lf => exact processWsmsg_blank (by decide) p
  | crlf =>
      exact (processWsmsg_blank (by decide) _).trans (processWsmsg_blank (by decide) p)

/-- Reading a buffer first and the rest of its stream later is reading the stream. -/
theorem processWsmsg_append (p more : Bytes) (whole : ¬CutAt (lastRound mem p) more) :
    upToError ((processWsmsg mem p).1 ++ (processWsmsg mem ((processWsmsg mem p).2 ++ more)).1) =
      upToError (processWsmsg mem (p ++ more)).1 ∧
    ((upToError (processWsmsg mem (p ++ more)).1).2 = none →
      (processWsmsg mem ((processWsmsg mem p).2 ++ more)).2 = (processWsmsg mem (p ++ more)).2) := by
  have joined : ∀ (c : UInt8) (rest : Bytes), c :: rest ++ more = c :: (rest ++ more) :=
    fun _ _ => rfl
  induction p using processWsmsg_induction with
  | nil => exact ⟨rfl, fun _ => rfl⟩
  | blank c rest blank ih =>
      rw [lastRound_blank blank] at whole
      rw [processWsmsg_blank blank, joined, processWsmsg_blank blank]
      exact ih whole
  | stop c rest status other read =>
      rw [lastRound_error other read] at whole
      by_cases isError : status = .partialValue
      · subst isError
        rw [processWsmsg_unfinished other read]
        exact ⟨rfl, fun _ => rfl⟩
      · rw [processWsmsg_error other read isError, joined,
          processWsmsg_error other (readCommand_error read isError whole) isError]
        exact ⟨rfl, nofun⟩
  | command c rest m size other read ih =>
      rw [lastRound_command other read] at whole
      have last : size = rest.length + 1 → ¬CutAt (c :: rest) more := by
        intro all
        rwa [if_pos all] at whole
      have behind : ¬CutAt (lastRound mem ((c :: rest).drop size)) more := by
        by_cases all : size = rest.length + 1
        · rw [all, List.drop_of_length_le (by simp)]
          rintro ⟨⟨c, first, -⟩, -⟩
          cases first
        · rwa [if_neg all] at whole
      obtain ⟨term, tail, split, lineEnd, longer⟩ := readCommand_append read last
      have bound := (readCommand_within read).2
      have later : (c :: (rest ++ more)).drop (size + term.length) = tail := by
        rw [← List.drop_drop, ← List.cons_append, List.drop_append_of_le_length bound, split,
          List.drop_left]
      have same : processWsmsg mem tail = processWsmsg mem ((c :: rest).drop size ++ more) := by
        rw [split, processWsmsg_lineEnd lineEnd]
      obtain ⟨events, left⟩ := ih behind
      rw [processWsmsg_command other read, joined, processWsmsg_command other longer, later, same]
      constructor
      · rw [List.cons_append, upToError_message, upToError_message, events]
      · intro noError
        exact left noError

end Cut

end Raids
