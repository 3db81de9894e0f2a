import Raids.Library.Splitting
import Raids.Proof.Memcached.Content

namespace Raids.Memcached
open IncrementalParser

/-- The buffer behind its blank lines; each line takes at least one byte. -/
def requestFrom : Nat → Bytes → Bytes
  | 0, s => s
  | fuel + 1, s =>
      if eol s < s.length ∧ blanks s = (commandLine s).length then
        requestFrom fuel (s.drop (eol s + 1))
      else s

def requestStart (s : Bytes) : Bytes := requestFrom s.length s

theorem requestFrom_blanks {pre t : Bytes} (skipped : Blanks pre) (starts : StartsRequest t)
    {fuel : Nat} (enough : (pre ++ t).length ≤ fuel) : requestFrom fuel (pre ++ t) = t := by
  induction skipped generalizing fuel with
  | nil =>
      cases fuel with
      | zero => rfl
      | succ fuel =>
          rw [List.nil_append, requestFrom, if_neg]
          intro skips
          obtain ⟨present, all⟩ := skips
          have feed : lf ∈ t := by
            by_contra absent
            rw [eol_eq_length.mpr absent] at present
            exact Nat.lt_irrefl _ present
          obtain ⟨content, rest, split, noLf, _⟩ := eol_split feed
          rw [split, blanks_eq_length noLf] at all
          apply starts (content ++ [lf]) rest (by rw [split, List.append_assoc]; rfl)
          exact blankLine_iff.mpr ⟨content, rfl, all⟩
  | @cons line rest blank _ ih =>
      obtain ⟨content, split, all⟩ := blankLine_iff.mp blank
      have noLf := lf_notMem_of_blank all
      have whole : line ++ rest ++ t = content ++ lf :: (rest ++ t) := by
        rw [split, List.append_assoc, List.append_assoc]
        rfl
      have size : (line ++ rest ++ t).length = content.length + 1 + (rest ++ t).length := by
        rw [whole, List.length_append, List.length_cons]
        omega
      cases fuel with
      | zero => omega
      | succ fuel =>
          have short : eol (line ++ rest ++ t) < (line ++ rest ++ t).length := by
            rw [size, whole, eol_append noLf]
            omega
          have blank' : blanks (line ++ rest ++ t) = (commandLine (line ++ rest ++ t)).length := by
            rw [whole, blanks_eq_length noLf]
            exact all
          rw [requestFrom, if_pos ⟨short, blank'⟩, whole, drop_eol_append noLf]
          apply ih
          omega

/-- The bytes behind the blank lines are the start of a request. -/
theorem requestStart_append {pre t : Bytes} (skipped : Blanks pre) (starts : StartsRequest t) :
    requestStart (pre ++ t) = t := requestFrom_blanks skipped starts le_rfl

theorem requestStart_self {t : Bytes} (starts : StartsRequest t) : requestStart t = t :=
  requestStart_append .nil starts

theorem Blanks.append {first second : Bytes} (blank : Blanks first) (blank' : Blanks second) :
    Blanks (first ++ second) := by
  induction blank with
  | nil => exact blank'
  | cons line _ ih =>
      rw [List.append_assoc]
      exact .cons line ih

/-- What a binary request says. -/
def binContent (t : Bytes) : MemcachedMsg := (unpackBin 0 0 t).msg.content

theorem unpackBin_content (buflen j : Nat) (t : Bytes) :
    (unpackBin buflen j t).msg.content = binContent t := by
  rw [binContent, unpackBin, unpackBin]
  split
  · rfl
  · have same := parseBin_content (binMsg (readBinHdr t)) (readBinHdr t)
      (j + MemcachedBinHdr.size) (0 + MemcachedBinHdr.size) (t.drop MemcachedBinHdr.size)
    dsimp only
    cases here : parseBin (binMsg (readBinHdr t)) (readBinHdr t) (j + MemcachedBinHdr.size)
        (t.drop MemcachedBinHdr.size) with
    | none =>
        rw [here, Option.map_none, eq_comm, Option.map_eq_none_iff] at same
        rw [same]
    | some body =>
        rw [here, Option.map_some, eq_comm, Option.map_eq_some_iff] at same
        obtain ⟨body', there, content⟩ := same
        rw [there]
        rcases body with ⟨n, result⟩
        rcases body' with ⟨n', result'⟩
        injection content with _ results
        dsimp only at results
        cases result with
        | error status =>
            cases result' with
            | error status' =>
                injection results with status
                rw [status]
            | ok m' => cases results
        | ok m =>
            cases result' with
            | error status' => cases results
            | ok m' =>
                injection results with content
                exact content.symm

/-- A complete binary request says the same, whatever follows it. -/
theorem binContent_append {t : Bytes} (complete : CompleteBin t) (more : Bytes) :
    binContent (t ++ more) = binContent t := by
  rw [CompleteBin, bodyLength] at complete
  have header := readBinHdr_append (s := t) (by omega) more
  rw [binContent, binContent, unpackBin, unpackBin, if_neg (by rw [List.length_append]; omega),
    if_neg (by omega), header, List.drop_append_of_le_length (by omega)]
  dsimp only
  rw [parseBin_append _ _ _ (by rw [List.length_drop]; omega)]

/-- The bytes a complete binary request takes behind its header. -/
def binTaken (t : Bytes) : Nat := takenLength (binCommand t) (readBinHdr t)

/-- A line that parses, with its data. -/
def lineAttempt (room : Nat → Bool) (line rest : Bytes) : Attempt MemcachedMsg ReceiveError :=
  match lineMessage room line with
  | .error .msgPartial => .more
  | .error status => .fail (.refused status)
  | .ok m =>
      if m.command.isStorage then
        if rest.length < m.msglen then .more
        else .item { m with msg := some ⟨0, rest.take m.msglen⟩ }
          (line.length + 1 + (m.msglen + eaten (rest.drop m.msglen)))
      else .item m (line.length + 1)

/-- The attempt where a request starts. -/
def requestAttempt (room : Nat → Bool) (t : Bytes) : Attempt MemcachedMsg ReceiveError :=
  if t.head? = some binMagic then
    if MemcachedBinHdr.size + bodyLength t ≤ t.length then
      if MemcachedBinHdr.size + binTaken t ≤ t.length then
        .item (binContent t) (MemcachedBinHdr.size + binTaken t)
      else .fail .overrun
    else .more
  else if eol t < t.length then lineAttempt room (t.take (eol t)) (t.drop (eol t + 1))
  else .more

theorem requestAttempt_text (room : Nat → Bool) {line rest : Bytes} (noLf : lf ∉ line)
    (notMagic : (line ++ lf :: rest).head? ≠ some binMagic) :
    requestAttempt room (line ++ lf :: rest) = lineAttempt room line rest := by
  rw [requestAttempt, if_neg notMagic, eol_append noLf, if_pos, List.take_left,
    ← List.drop_drop, List.drop_left]
  · rfl
  · rw [List.length_append, List.length_cons]
    omega

theorem requestAttempt_open (room : Nat → Bool) {t : Bytes} (notMagic : t.head? ≠ some binMagic)
    (absent : lf ∉ t) : requestAttempt room t = .more := by
  rw [requestAttempt, if_neg notMagic, eol_eq_length.mpr absent, if_neg (Nat.lt_irrefl _)]

/-- The attempt of a buffer is the attempt of its request behind the blank lines. -/
theorem unpackAttempt_request (room : Nat → Bool) {pre t : Bytes} (skipped : Blanks pre)
    (starts : StartsRequest t) :
    unpackAttempt room (pre ++ t) = (requestAttempt room t).shift pre.length := by
  rw [unpackAttempt, unpack_request room skipped starts, unpackRequest]
  by_cases empty : t = []
  · rw [if_pos empty, empty]
    rfl
  rw [if_neg empty]
  by_cases magic : t.head? = some binMagic
  · rw [if_pos magic, requestAttempt, if_pos magic]
    by_cases complete : CompleteBin t
    · obtain ⟨ok, length, _⟩ := unpackBin_complete (pre ++ t).length pre.length complete
      have same : pre.length + MemcachedBinHdr.size + takenLength (binCommand t) (readBinHdr t) =
          MemcachedBinHdr.size + binTaken t + pre.length := by
        rw [binTaken]
        omega
      have whole : MemcachedBinHdr.size + bodyLength t ≤ t.length := complete
      rw [ok, length, unpackBin_content, if_pos whole, same, List.length_append]
      dsimp only
      by_cases inside : MemcachedBinHdr.size + binTaken t ≤ t.length
      · rw [if_pos inside, if_pos (by omega), Attempt.shift]
      · rw [if_neg inside, if_neg (by omega), Attempt.shift]
    · have short : ¬MemcachedBinHdr.size + bodyLength t ≤ t.length := complete
      rw [unpackBin_short _ _ complete, if_neg short]
      rfl
  rw [if_neg magic]
  by_cases present : lf ∈ t
  · obtain ⟨line, rest, split, noLf, place⟩ := eol_split present
    rw [if_pos present]
    rw [split] at magic ⊢
    have message := parseFirst_content room pre.length noLf rest
    rw [requestAttempt_text room noLf magic, unpackText, lineAttempt, ← message, eol_append noLf,
      ← List.drop_drop, List.drop_left]
    cases parsed : parseFirst room pre.length (line ++ lf :: rest) with
    | error status =>
        have notOk : status ≠ .ok := parseLine_error parsed
        cases status with
        | ok => exact absurd rfl notOk
        | _ => rfl
    | ok m =>
        have command : m.content.command = m.command := rfl
        have msglen : m.content.msglen = m.msglen := rfl
        simp only [Except.map, command, msglen, List.drop_one, List.tail_cons]
        cases storage : m.command.isStorage with
        | false =>
            have inside : pre.length + (line.length + 1) ≤ (pre ++ (line ++ lf :: rest)).length := by
              simp only [List.length_append, List.length_cons]
              omega
            simp only [Bool.false_eq_true, if_false, if_pos inside, Attempt.shift, Nat.add_comm]
        | true =>
            simp only [if_true]
            by_cases short : rest.length < m.msglen
            · rw [if_pos short, if_pos short]
              rfl
            · have bound := eaten_le (rest.drop m.msglen)
              rw [List.length_drop] at bound
              have inside : pre.length + (line.length + 1) +
                  (m.msglen + eaten (rest.drop m.msglen)) ≤
                    (pre ++ (line ++ lf :: rest)).length := by
                simp only [List.length_append, List.length_cons]
                omega
              rw [if_neg short, if_neg short]
              simp only [if_pos inside, Attempt.shift]
              congr 1
              omega
  · rw [if_neg present, requestAttempt_open room magic present]
    rfl

theorem unpackAttempt_self (room : Nat → Bool) {t : Bytes} (starts : StartsRequest t) :
    unpackAttempt room t = requestAttempt room t := by
  have same := unpackAttempt_request room .nil starts
  rw [List.nil_append, List.length_nil] at same
  rw [same]
  cases requestAttempt room t with
  | more => rfl
  | fail error => rfl
  | item m n => rfl

end Raids.Memcached
