import Raids.Proof.Memcached.Chunks

namespace Raids.Memcached
open IncrementalParser Runs

/-- The requests of a stream whose first bytes were received with the requests before: the line
end behind the data of a storage request ends the request, and where a binary retrieval takes
more than its body, its bytes were received. -/
def Separable (room : Nat → Bool) (stream : Bytes) : Prop :=
  Tame (unpackAttempt room) (fun s => LineEnds room (requestStart s))
    (fun s => KeyBehind (requestStart s)) (fun s => bodyAhead (requestStart s)) 0 stream

/-- A request that was decided starts whatever follows it. -/
theorem startsRequest_append {room : Nat → Bool} {t : Bytes} (starts : StartsRequest t)
    (decided : requestAttempt room t ≠ .more) (more : Bytes) : StartsRequest (t ++ more) := by
  by_cases magic : t.head? = some binMagic
  · apply startsRequest_magic
    cases t with
    | nil => cases magic
    | cons c t => exact magic
  · obtain ⟨line, rest, split, _⟩ := line_of_attempt room magic decided
    exact starts.append (by rw [split]; simp) more

/-- A buffer is blank lines and the start of a request, which its attempt takes. -/
theorem exists_attempt (room : Nat → Bool) (s : Bytes) :
    ∃ pre t, s = pre ++ t ∧ Blanks pre ∧ StartsRequest t ∧ requestStart s = t ∧
      unpackAttempt room s = (requestAttempt room t).shift pre.length := by
  obtain ⟨pre, t, split, skipped, starts⟩ := exists_request s
  refine ⟨pre, t, split, skipped, starts, ?_, ?_⟩
  · rw [split, requestStart_append skipped starts]
  · rw [split, unpackAttempt_request room skipped starts]

theorem requestStart_blanks {blanks : Bytes} (blank : Blanks blanks) (rest : Bytes) :
    requestStart (blanks ++ rest) = requestStart rest := by
  obtain ⟨pre, t, split, skipped, starts⟩ := exists_request rest
  rw [split, ← List.append_assoc, requestStart_append (blank.append skipped) starts,
    requestStart_append skipped starts]

/-- A request that is cut starts where it was. -/
theorem StartsRequest.take {t more : Bytes} (starts : StartsRequest (t ++ more)) :
    StartsRequest t := by
  intro line rest split
  exact starts line (rest ++ more) (by rw [split, List.append_assoc])

/-- A cut behind the blank lines leaves the front of the request. -/
theorem exists_front {first second pre t : Bytes} (split : first ++ second = pre ++ t)
    (behind : pre.length ≤ first.length) : ∃ t', first = pre ++ t' ∧ t = t' ++ second := by
  rcases List.append_eq_append_iff.mp split with ⟨middle, same, rest⟩ | ⟨middle, same, rest⟩
  · have empty : middle = [] := by
      apply List.eq_nil_of_length_eq_zero
      rw [same, List.length_append] at behind
      omega
    subst empty
    exact ⟨[], by simpa using same.symm, by simpa using rest.symm⟩
  · exact ⟨middle, same, rest⟩

theorem requestAttempt_pos {room : Nat → Bool} {t : Bytes} {m : MemcachedMsg} {n : Nat}
    (item : requestAttempt room t = .item m n) : 0 < n := by
  by_cases magic : t.head? = some binMagic
  · rw [requestAttempt_bin room magic] at item
    split at item
    · split at item
      · obtain ⟨_, rfl⟩ := Attempt.item.inj item
        rw [MemcachedBinHdr.size]
        omega
      · cases item
    · cases item
  · obtain ⟨line, rest, split, noLf⟩ := line_of_attempt room magic (by simp [item])
    rw [split] at magic
    rw [split, requestAttempt_text room noLf magic] at item
    have long := lineAttempt_length item
    omega

section Splittable

variable (room : Nat → Bool)

/-- A line end behind the data moves the next request. -/
theorem skips_blankEnd {blanks rest : Bytes} (blank : BlankEnd blanks rest) :
    Skips (unpackAttempt room) (fun s => LineEnds room (requestStart s))
      (fun s => KeyBehind (requestStart s)) (fun s => bodyAhead (requestStart s)) blanks rest := by
  rcases blank with lines | half
  · have same := requestStart_blanks lines rest
    apply Skips.mk
    · obtain ⟨pre, t, split, skipped, starts⟩ := exists_request rest
      rw [split, ← List.append_assoc, unpackAttempt_request room (lines.append skipped) starts,
        unpackAttempt_request room skipped starts, Attempt.shift_shift, List.length_append]
    · intro _
      rw [same]
    · intro _
      rw [same]
    · intro _
      rw [same]
  · obtain ⟨rfl, rfl⟩ := half
    have waits : unpackAttempt room [] = .more := rfl
    apply Skips.mk
    · rfl
    · exact fun found => absurd waits found
    · exact fun found => absurd waits found
    · exact fun found => absurd waits found

/-- The received bytes decide about a request as the whole stream does. -/
theorem splittable_unpackAttempt :
    Splittable (unpackAttempt room) (fun s => LineEnds room (requestStart s))
      (fun s => KeyBehind (requestStart s)) (fun s => bodyAhead (requestStart s)) .overrun := by
  refine { nil := rfl, length_pos := ?_, length_le := ?_, fail_append := ?_, item_append := ?_,
           seen_le := ?_, item_take := ?_, short_take := ?_ }
  · intro s m n item
    obtain ⟨pre, t, split, skipped, starts, place, whole⟩ := exists_attempt room s
    obtain ⟨inner, here, size⟩ := Attempt.shift_eq_item (whole.symm.trans item)
    have positive := requestAttempt_pos here
    omega
  · intro s m n item
    obtain ⟨pre, t, split, skipped, starts, place, whole⟩ := exists_attempt room s
    obtain ⟨inner, here, size⟩ := Attempt.shift_eq_item (whole.symm.trans item)
    obtain ⟨_, _, inside, _⟩ := requestAttempt_append here []
    rw [split, List.length_append]
    omega
  · intro s error more failed
    obtain ⟨pre, t, split, skipped, starts, place, whole⟩ := exists_attempt room s
    have here := Attempt.shift_eq_fail.mp (whole.symm.trans failed)
    have starts' := startsRequest_append starts (by rw [here]; simp) more
    have longer : unpackAttempt room (s ++ more) =
        (requestAttempt room (t ++ more)).shift pre.length := by
      rw [split, List.append_assoc, unpackAttempt_request room skipped starts']
    have place' : requestStart (s ++ more) = t ++ more := by
      rw [split, List.append_assoc, requestStart_append skipped starts']
    rcases requestAttempt_fail here more with same | completed
    · left
      rw [longer, same, Attempt.shift]
    · obtain ⟨overrun, m, n, item, behind, less⟩ := completed
      refine .inr ⟨overrun, m, n + pre.length, by rw [longer, item, Attempt.shift], ?_, ?_⟩
      · rw [place']
        exact behind
      · rw [split, List.length_append]
        omega
  · intro s m n more item
    obtain ⟨pre, t, split, skipped, starts, place, whole⟩ := exists_attempt room s
    obtain ⟨inner, here, size⟩ := Attempt.shift_eq_item (whole.symm.trans item)
    have starts' := startsRequest_append starts (by rw [here]; simp) more
    obtain ⟨total, longer, inside, moved⟩ := requestAttempt_append here more
    have place' : requestStart (s ++ more) = t ++ more := by
      rw [split, List.append_assoc, requestStart_append skipped starts']
    refine ⟨total + pre.length, ?_, ?_⟩
    · rw [split, List.append_assoc, unpackAttempt_request room skipped starts', longer,
        Attempt.shift]
    · intro ends
      rw [place'] at ends
      obtain ⟨blanks, rest, cut, size', isBlank, less⟩ := moved ends
      refine ⟨blanks, rest, ?_, by omega, skips_blankEnd room isBlank, ?_⟩
      · rw [split, size, Nat.add_comm, List.drop_length_add_append]
        exact cut
      · rw [place', place]
        exact less
  · intro s m n item
    obtain ⟨pre, t, split, skipped, starts, place, whole⟩ := exists_attempt room s
    obtain ⟨inner, here, size⟩ := Attempt.shift_eq_item (whole.symm.trans item)
    have seen := requestAttempt_seen here
    rw [place, split, List.length_append]
    omega
  · intro first second m n item received
    obtain ⟨pre, t, split, skipped, starts, place, whole⟩ := exists_attempt room (first ++ second)
    obtain ⟨inner, here, size⟩ := Attempt.shift_eq_item (whole.symm.trans item)
    rw [place] at received
    obtain ⟨t', front, back⟩ := exists_front split (by omega)
    rw [back] at here received starts
    have length : first.length = pre.length + t'.length := by rw [front, List.length_append]
    have early := requestAttempt_take here (by omega)
    rw [front, unpackAttempt_request room skipped (starts.take), early, Attempt.shift, size]
  · intro first second m n item behind lacks
    obtain ⟨pre, t, split, skipped, starts, place, whole⟩ := exists_attempt room (first ++ second)
    obtain ⟨inner, here, size⟩ := Attempt.shift_eq_item (whole.symm.trans item)
    have positive := requestAttempt_pos here
    rw [place] at behind
    obtain ⟨t', front, back⟩ := exists_front split (by omega)
    rw [back] at here behind starts
    have length : first.length = pre.length + t'.length := by rw [front, List.length_append]
    have overruns := requestAttempt_short here behind (by omega)
    rw [front, unpackAttempt_request room skipped (starts.take), overruns, Attempt.shift]

end Splittable

end Raids.Memcached
