import Raids.Library.IncrementalParser

namespace IncrementalParser

variable {α μ ε : Type}

/-- The places where the reading of a stream looks for its next message. -/
inductive Reached (parse : List α → Attempt μ ε) (stream : List α) : List α → Prop where
  | start : Reached parse stream stream
  | next {buffer : List α} {message : μ} {length : Nat} (reached : Reached parse stream buffer)
      (item : parse buffer = .item message length) : Reached parse stream (buffer.drop length)

/-- Every cut of a stream gives the messages of the whole up to the first error. -/
def SplitsAlike (parse : List α → Attempt μ ε) (stream : List α) : Prop :=
  ∀ chunks : List (List α), chunks.flatten = stream →
    upToError (feed parse [] chunks) = upToError (drain parse stream).1

/-- A parser may accept a message before all of it is there: such a message is short. It may
also wait for elements that lie ahead of the message. At each message of a tame stream the
parser is clean, and a short message lies in what was `seen` with the messages before. -/
inductive Tame (parse : List α → Attempt μ ε) (clean short : List α → Prop)
    (ahead : List α → Nat) : Nat → List α → Prop where
  | more {seen : Nat} {buffer : List α} (attempt : parse buffer = .more) :
      Tame parse clean short ahead seen buffer
  | fail {seen : Nat} {buffer : List α} {error : ε} (attempt : parse buffer = .fail error) :
      Tame parse clean short ahead seen buffer
  | item {seen : Nat} {buffer : List α} {message : μ} {length : Nat}
      (attempt : parse buffer = .item message length) (isClean : clean buffer)
      (received : short buffer → length ≤ seen)
      (rest : Tame parse clean short ahead (max (seen - length) (ahead buffer))
        (buffer.drop length)) : Tame parse clean short ahead seen buffer

/-- The blanks in front of the rest move its message and change nothing else. -/
structure Skips (parse : List α → Attempt μ ε) (clean short : List α → Prop)
    (ahead : List α → Nat) (blanks rest : List α) : Prop where
  attempt : parse (blanks ++ rest) = (parse rest).shift blanks.length
  clean : parse rest ≠ .more → (clean (blanks ++ rest) ↔ clean rest)
  short : parse rest ≠ .more → (short (blanks ++ rest) ↔ short rest)
  ahead : parse rest ≠ .more → ahead (blanks ++ rest) = ahead rest

/-- A longer input moves a message over more blanks, where the input is clean; it completes a
short message that was an overrun before. -/
structure Splittable (parse : List α → Attempt μ ε) (clean short : List α → Prop)
    (ahead : List α → Nat) (overrun : ε) : Prop extends Progress parse where
  fail_append : ∀ {buffer error} more, parse buffer = .fail error →
    parse (buffer ++ more) = .fail error ∨
      error = overrun ∧ ∃ message length, parse (buffer ++ more) = .item message length ∧
        short (buffer ++ more) ∧ buffer.length < length
  item_append : ∀ {buffer message length} more, parse buffer = .item message length →
    ∃ total, parse (buffer ++ more) = .item message total ∧
      (clean (buffer ++ more) → ∃ blanks rest, buffer.drop length ++ more = blanks ++ rest ∧
        total = length + blanks.length ∧ Skips parse clean short ahead blanks rest ∧
        ahead (buffer ++ more) ≤ ahead buffer - blanks.length)
  seen_le : ∀ {buffer message length}, parse buffer = .item message length →
    length + ahead buffer ≤ buffer.length
  item_take : ∀ {first second message length}, parse (first ++ second) = .item message length →
    length + ahead (first ++ second) ≤ first.length → parse first = .item message length
  short_take : ∀ {first second message length}, parse (first ++ second) = .item message length →
    short (first ++ second) → first.length + 1 = length → parse first = .fail overrun

section Splitting

variable {parse : List α → Attempt μ ε} {clean short : List α → Prop} {ahead : List α → Nat}
  {overrun : ε}

/-- Blanks in front of the rest change no message and no error. -/
theorem Skips.upToError_drain (progress : Progress parse) {blanks rest : List α}
    (skips : Skips parse clean short ahead blanks rest) :
    upToError (drain parse (blanks ++ rest)).1 = upToError (drain parse rest).1 := by
  have shifted := skips.attempt
  cases attempt : parse rest with
  | more =>
      rw [attempt] at shifted
      rw [drain_more progress shifted, drain_more progress attempt]
  | fail error =>
      rw [attempt] at shifted
      rw [drain_fail progress shifted, drain_fail progress attempt]
  | item message length =>
      rw [attempt] at shifted
      rw [drain_item progress shifted, drain_item progress attempt, Nat.add_comm length,
        List.drop_length_add_append]

/-- More may be seen. -/
theorem Tame.mono {seen more : Nat} {buffer : List α} (tame : Tame parse clean short ahead seen buffer)
    (le : seen ≤ more) : Tame parse clean short ahead more buffer := by
  induction tame generalizing more with
  | more attempt => exact .more attempt
  | fail attempt => exact .fail attempt
  | item attempt isClean received _ ih =>
      apply Tame.item attempt isClean
      · intro isShort
        exact (received isShort).trans le
      · apply ih
        omega

/-- Blanks in front of a tame rest. -/
theorem Tame.skips {seen : Nat} {blanks rest : List α}
    (skips : Skips parse clean short ahead blanks rest) (progress : Progress parse)
    (tame : Tame parse clean short ahead (seen - blanks.length) rest) :
    Tame parse clean short ahead seen (blanks ++ rest) := by
  have shifted := skips.attempt
  cases tame with
  | more attempt =>
      rw [attempt] at shifted
      exact .more shifted
  | fail attempt =>
      rw [attempt] at shifted
      exact .fail shifted
  | @item _ _ message length attempt isClean received tail =>
      have found : parse rest ≠ .more := by simp [attempt]
      have positive := progress.length_pos attempt
      rw [attempt] at shifted
      apply Tame.item shifted ((skips.clean found).mpr isClean)
      · intro isShort
        have inside := received ((skips.short found).mp isShort)
        omega
      · rw [skips.ahead found, Nat.add_comm length, List.drop_length_add_append]
        apply tail.mono
        omega

/-- One drained prefix of a tame stream leaves a tame stream. -/
theorem Tame.drain_append (splittable : Splittable parse clean short ahead overrun) {seen : Nat}
    {first : List α} (second : List α)
    (tame : Tame parse clean short ahead seen (first ++ second)) (received : seen ≤ first.length) :
    upToError ((drain parse first).1 ++ (drain parse ((drain parse first).2 ++ second)).1) =
        upToError (drain parse (first ++ second)).1 ∧
      ((upToError (drain parse first).1).2 = none →
        ∃ later ≤ (drain parse first).2.length,
          Tame parse clean short ahead later ((drain parse first).2 ++ second)) := by
  have progress := splittable.toProgress
  induction first using IncrementalParser.drain_induction progress generalizing seen with
  | more buffer attempt =>
      rw [drain_more progress attempt]
      exact ⟨rfl, fun _ => ⟨seen, received, tame⟩⟩
  | fail buffer error attempt =>
      have same : parse (buffer ++ second) = .fail error := by
        rcases splittable.fail_append second attempt with whole | completed
        · exact whole
        · obtain ⟨_, message, length, whole, isShort, behind⟩ := completed
          cases tame with
          | more other => simp [whole] at other
          | fail other => simp [whole] at other
          | item other _ inside _ =>
              obtain ⟨-, rfl⟩ := Attempt.item.inj (whole.symm.trans other)
              have seenAll := inside isShort
              omega
      rw [drain_fail progress attempt, drain_fail progress same]
      exact ⟨rfl, by simp⟩
  | item buffer message length attempt ih =>
      obtain ⟨total, whole, moved⟩ := splittable.item_append second attempt
      have within := splittable.seen_le attempt
      cases tame with
      | more other => simp [whole] at other
      | fail other => simp [whole] at other
      | item other isClean _ tail =>
          obtain ⟨-, rfl⟩ := Attempt.item.inj (whole.symm.trans other)
          obtain ⟨blanks, rest, split, size, skips, less⟩ := moved isClean
          have left : (buffer ++ second).drop total = rest := by
            rw [size, ← List.drop_drop,
              List.drop_append_of_le_length (progress.length_le attempt), split, List.drop_left]
          have here : Tame parse clean short ahead (max (seen - length) (ahead buffer))
              (buffer.drop length ++ second) := by
            rw [split]
            apply Tame.skips skips progress
            rw [left] at tail
            apply tail.mono
            omega
          obtain ⟨same, later⟩ := ih here (by rw [List.length_drop]; omega)
          rw [split, skips.upToError_drain progress] at same
          rw [drain_item progress attempt, drain_item progress whole, left]
          constructor
          · rw [List.cons_append, upToError_message, upToError_message, same]
          · exact later

/-- The chunks of a tame stream give the messages of the whole. -/
theorem Tame.upToError_feed (splittable : Splittable parse clean short ahead overrun) {seen : Nat}
    {pending : List α} (chunks : List (List α)) (waiting : parse pending = .more)
    (received : seen ≤ pending.length)
    (tame : Tame parse clean short ahead seen (pending ++ chunks.flatten)) :
    upToError (feed parse pending chunks) =
      upToError (drain parse (pending ++ chunks.flatten)).1 := by
  have progress := splittable.toProgress
  induction chunks generalizing seen pending with
  | nil => simp [feed, drain_more progress waiting]
  | cons chunk chunks ih =>
      rw [List.flatten_cons, ← List.append_assoc] at tame ⊢
      obtain ⟨same, later⟩ := Tame.drain_append splittable chunks.flatten tame
        (by rw [List.length_append]; omega)
      rw [← same, feed, upToError_append, upToError_append]
      cases failed : (upToError (drain parse (pending ++ chunk)).1).2 with
      | some error => rfl
      | none =>
          obtain ⟨seen', inside, rest⟩ := later failed
          rw [ih (drain_pending progress _) inside rest]

/-- Where a stream is tame, its messages are clean. -/
theorem Tame.reached {stream buffer : List α} (tame : Tame parse clean short ahead 0 stream)
    (reached : Reached parse stream buffer) : ∃ seen, Tame parse clean short ahead seen buffer := by
  induction reached with
  | start => exact ⟨0, tame⟩
  | next _ item ih =>
      obtain ⟨seen, here⟩ := ih
      cases here with
      | more other => simp [item] at other
      | fail other => simp [item] at other
      | item other _ _ rest =>
          obtain ⟨-, rfl⟩ := Attempt.item.inj (item.symm.trans other)
          exact ⟨_, rest⟩

/-- A stream is tame when no cut in two changes its messages: a cut in front of the last element
of a short message that was not seen is an overrun. -/
theorem tame_of_splits (splittable : Splittable parse clean short ahead overrun) {seen : Nat}
    {stream : List α} (inside : seen ≤ stream.length)
    (alike : ∀ first second, stream = first ++ second → seen ≤ first.length →
      upToError ((drain parse first).1 ++ (drain parse ((drain parse first).2 ++ second)).1) =
        upToError (drain parse stream).1)
    (cleans : ∀ buffer message length, Reached parse stream buffer →
      parse buffer = .item message length → clean buffer) :
    Tame parse clean short ahead seen stream := by
  have progress := splittable.toProgress
  induction stream using drain_induction progress generalizing seen with
  | more buffer attempt => exact .more attempt
  | fail buffer error attempt => exact .fail attempt
  | item buffer message length attempt ih =>
      have positive := progress.length_pos attempt
      have within := splittable.seen_le attempt
      apply Tame.item attempt (cleans buffer message length .start attempt)
      · intro isShort
        by_contra unseen
        have cut : buffer = buffer.take (length - 1) ++ buffer.drop (length - 1) :=
          (List.take_append_drop _ _).symm
        have size : (buffer.take (length - 1)).length = length - 1 := by
          rw [List.length_take]
          omega
        have whole : parse (buffer.take (length - 1) ++ buffer.drop (length - 1)) =
            .item message length := by
          rw [← cut]
          exact attempt
        have overruns : parse (buffer.take (length - 1)) = .fail overrun :=
          splittable.short_take whole (by rwa [← cut]) (by omega)
        have same := alike _ _ cut (by omega)
        rw [drain_fail progress overruns, drain_item progress attempt] at same
        simp at same
      · apply ih
        · rw [List.length_drop]
          omega
        · intro first second split fits
          have whole : buffer = (buffer.take length ++ first) ++ second := by
            rw [List.append_assoc, ← split, List.take_append_drop]
          have size : (buffer.take length).length = length := by
            rw [List.length_take]
            omega
          have item : parse (buffer.take length ++ first ++ second) = .item message length := by
            rw [← whole]
            exact attempt
          have early : parse (buffer.take length ++ first) = .item message length := by
            apply splittable.item_take item
            rw [← whole, List.length_append]
            omega
          have same := alike _ _ whole (by rw [List.length_append]; omega)
          rw [drain_item progress early, drain_item progress attempt] at same
          have rest : (buffer.take length ++ first).drop length = first := List.drop_left' size
          rw [rest, List.cons_append, upToError_message, upToError_message] at same
          injection same with messages errors
          exact Prod.ext (List.cons.inj messages).2 errors
        · intro later message' length' reached item
          apply cleans later message' length' _ item
          clear item
          induction reached with
          | start => exact .next .start attempt
          | next _ item step => exact .next step item

/-- Every cut of a stream gives its messages, and these are clean, exactly when it is tame. -/
theorem splitsAlike_iff (splittable : Splittable parse clean short ahead overrun)
    (stream : List α) :
    SplitsAlike parse stream ∧ (∀ buffer message length, Reached parse stream buffer →
      parse buffer = .item message length → clean buffer) ↔
      Tame parse clean short ahead 0 stream := by
  have progress := splittable.toProgress
  constructor
  · intro holds
    obtain ⟨alike, cleans⟩ := holds
    apply tame_of_splits splittable (Nat.zero_le _) _ cleans
    intro first second split _
    have two := alike [first, second] (by simp [split])
    simpa only [feed, List.nil_append, List.append_nil] using two
  · intro tame
    constructor
    · intro chunks whole
      have result := Tame.upToError_feed splittable chunks progress.nil (Nat.zero_le _)
        (by rw [List.nil_append, whole]; exact tame)
      rwa [List.nil_append, whole] at result
    · intro buffer message length reached item
      obtain ⟨seen, here⟩ := tame.reached reached
      cases here with
      | more other => simp [item] at other
      | fail other => simp [item] at other
      | item _ isClean _ _ => exact isClean

end Splitting

end IncrementalParser
