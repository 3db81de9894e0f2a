import Raids.Construction.Memcached.Unpack
import Raids.Proof.Memcached.Process

namespace Raids.Memcached
open MemcachedMsg

theorem argcnt_content (m : MemcachedMsg) : m.content.argcnt = m.argcnt := List.length_map _

theorem arg_content (m : MemcachedMsg) (i : Nat) : m.content.arg i = m.arg i := by
  rw [arg, arg, content, List.map_map]
  rfl

/-- The content of arguments is their words. -/
theorem content_of_str {args args' : List MemcachedArgs}
    (same : args.map (·.str) = args'.map (·.str)) :
    args.map (·.content) = args'.map (·.content) := by
  have each : ∀ l : List MemcachedArgs, l.map (·.content) = (l.map (·.str)).map fun s => ⟨0, s⟩ := by
    intro l
    rw [List.map_map]
    rfl
  rw [each, each, same]

/-- The second result is the content of the first. -/
def IsContent (first second : Except MemcachedStatus MemcachedMsg) : Prop :=
  second = first.map (·.content)

namespace IsContent

theorem bind {α : Type} (first : Except MemcachedStatus α)
    {next next' : α → Except MemcachedStatus MemcachedMsg}
    (each : ∀ a, IsContent (next a) (next' a)) :
    IsContent (first >>= next) (first >>= next') := by
  cases first with
  | error status => exact rfl
  | ok a => exact each a

theorem ite {condition : Prop} [Decidable condition]
    {first first' second second' : Except MemcachedStatus MemcachedMsg}
    (yes : IsContent first first') (no : IsContent second second') :
    IsContent (if condition then first else second) (if condition then first' else second') := by
  split
  · exact yes
  · exact no

end IsContent

/-- The argument parsers read the content of the arguments. -/
theorem parseText_content (m : MemcachedMsg) : IsContent (parseText m) (parseText m.content) := by
  have command : m.content.command = m.command := rfl
  rw [parseText, parseText, command]
  cases m.command with
  | set | add | append | replace | prepend =>
      simp only [parseStore, argcnt_content, arg_content]
      exact .ite rfl <| .bind _ fun _ => .bind _ fun _ => .bind _ fun _ => rfl
  | cas =>
      simp only [parseCas, argcnt_content, arg_content]
      exact .ite rfl <| .bind _ fun _ => .bind _ fun _ => .bind _ fun _ => .bind _ fun _ => rfl
  | get | gets =>
      simp only [parseRetr, argcnt_content]
      exact .ite rfl rfl
  | gat | gats =>
      simp only [parseGat, argcnt_content, arg_content]
      exact .ite rfl <| .bind _ fun _ => rfl
  | delete =>
      simp only [parseDel, argcnt_content]
      exact .ite rfl rfl
  | touch =>
      simp only [parseTouch, argcnt_content, arg_content]
      exact .ite rfl <| .bind _ fun _ => rfl
  | incr | decr =>
      simp only [parseIncr, argcnt_content, arg_content]
      exact .ite rfl <| .bind _ fun _ => rfl
  | _ => exact rfl

/-- The keyword of a line is the same whatever follows the line. -/
theorem keyword_ends {line : Bytes} {c : UInt8} (ends : c = cr ∨ c = lf) (tail other : Bytes) :
    keyword (line ++ c :: tail) = keyword (line ++ c :: other) := by
  cases found : keyword (line ++ c :: tail) with
  | some command => exact (keyword_append ends found other).symm
  | none =>
      cases found' : keyword (line ++ c :: other) with
      | none => rfl
      | some command =>
          rw [keyword_append ends found' tail] at found
          cases found

theorem parseLine_content (room : Nat → Bool) (k k' : Nat) (line : Bytes) {s s' : Bytes}
    (same : keyword s = keyword s') :
    (parseLine room k line s).map (·.content) = (parseLine room k' line s').map (·.content) := by
  rw [parseLine, parseLine, same]
  dsimp only
  split
  · rfl
  · cases keyword s' with
    | none => rfl
    | some command =>
        have args := content_of_str (parseMcargs_str room
          (k + (line.takeWhile (· ≠ space)).length) (k' + (line.takeWhile (· ≠ space)).length)
          (line.drop (line.takeWhile (· ≠ space)).length))
        dsimp only
        rw [← parseText_content, ← parseText_content]
        congr 1
        simp only [content, args]

/-- What a line says; the bytes before its line feed are given. -/
def lineMessage (room : Nat → Bool) (line : Bytes) : Except MemcachedStatus MemcachedMsg :=
  (parseFirst room 0 (line ++ [lf])).map (·.content)

/-- A line says the same wherever it stands and whatever follows it. -/
theorem parseFirst_content (room : Nat → Bool) (j : Nat) {line : Bytes} (noLf : lf ∉ line)
    (rest : Bytes) :
    (parseFirst room j (line ++ lf :: rest)).map (·.content) = lineMessage room line := by
  rw [lineMessage, parseFirst, parseFirst, commandLine_append noLf, commandLine_append noLf,
    blanks_append noLf, blanks_append noLf]
  generalize same : ((dropCr line).takeWhile (· = space)).length = b
  have bounded : b ≤ (dropCr line).length := by
    rw [← same]
    exact (List.takeWhile_sublist _).length_le
  obtain ⟨c, tail, ends, split⟩ := dropCr_ends line
  rw [split rest, split [], List.drop_append_of_le_length bounded,
    List.drop_append_of_le_length bounded]
  exact parseLine_content room _ _ _ (keyword_ends ends _ _)

/-- What a body says. -/
def BinBody.content (parsed : BinBody) : BinBody :=
  { parsed with result := parsed.result.map (·.content) }

section Guarded

variable {short short' bad : Prop} [Decidable short] [Decidable short'] [Decidable bad]
  {length : Nat} {status : MemcachedStatus} {m m' : MemcachedMsg}

theorem content_guarded (same : m.content = m'.content) :
    (if short then none else some (BinBody.mk length (if bad then .error status else .ok m))).map
        (·.content) =
      (if short then none else some (BinBody.mk length (if bad then .error status else .ok m'))).map
        (·.content) := by
  split
  · rfl
  · rw [Option.map_some, Option.map_some, BinBody.content, BinBody.content]
    dsimp only
    split
    · rfl
    · rw [Except.map, Except.map, same]

/-- A complete body gives the same, whatever follows it. -/
theorem guarded_append (complete : ¬short) (complete' : ¬short') (same : ¬bad → m = m') :
    (if short then none else some (BinBody.mk length (if bad then .error status else .ok m))) =
      if short' then none
      else some (BinBody.mk length (if bad then .error status else .ok m')) := by
  rw [if_neg complete, if_neg complete']
  split
  · rfl
  · rename_i good
    rw [same good]

end Guarded

/-- A body says the same wherever it stands. -/
theorem parseBin_content (m : MemcachedMsg) (b : MemcachedBinHdr) (ptr ptr' : Nat) (body : Bytes) :
    (parseBin m b ptr body).map (·.content) = (parseBin m b ptr' body).map (·.content) := by
  rw [parseBin, parseBin]
  cases m.command with
  | get | delete | set | add | replace | append | prepend | gat | touch | incr | decr =>
      exact content_guarded rfl
  | _ => rfl

theorem slice_append {body : Bytes} {i n : Nat} (inside : i + n ≤ body.length) (more : Bytes) :
    ((body ++ more).drop i).take n = (body.drop i).take n := by
  rw [List.drop_append_of_le_length (by omega), List.take_append_of_le_length]
  rw [List.length_drop]
  omega

theorem parseBinOp_append (m : MemcachedMsg) (b : MemcachedBinHdr) {body : Bytes}
    (complete : b.datalen ≤ body.length) (more : Bytes) (extraSz : Nat) :
    m.parseBinOp b (body ++ more) extraSz = m.parseBinOp b body extraSz := by
  apply guarded_append
  · rw [List.length_append]
    omega
  · exact Nat.not_lt.mpr complete
  · intro good
    by_cases four : extraSz = 4
    · rw [if_pos four, if_pos four, List.take_append_of_le_length (by omega)]
    · rw [if_neg four, if_neg four]

/-- A complete body is parsed the same, whatever follows it. -/
theorem parseBin_append (m : MemcachedMsg) (b : MemcachedBinHdr) (ptr : Nat) {body : Bytes}
    (complete : b.datalen ≤ body.length) (more : Bytes) :
    parseBin m b ptr (body ++ more) = parseBin m b ptr body := by
  have there : ¬body.length < b.datalen := Nat.not_lt.mpr complete
  have here : ¬(body ++ more).length < b.datalen := by
    rw [List.length_append]
    omega
  have front : ∀ n ≤ body.length, (body ++ more).take n = body.take n :=
    fun n inside => List.take_append_of_le_length inside
  rw [parseBin, parseBin]
  cases m.command with
  | get | delete =>
      apply guarded_append here there
      intro good
      rw [binKey, binKey, front _ (by omega)]
  | set | add | replace =>
      apply guarded_append here there
      intro good
      rw [binKey, binKey, slice_append (by omega), slice_append (by omega), slice_append (by omega),
        front _ (by omega)]
  | append | prepend =>
      apply guarded_append here there
      intro good
      rw [binKey, binKey, front _ (by omega), slice_append (by omega)]
  | gat | touch =>
      apply guarded_append here there
      intro good
      rw [binKey, binKey, slice_append (by omega), front _ (by omega)]
  | incr | decr =>
      apply guarded_append here there
      intro good
      rw [binKey, binKey, slice_append (by omega), slice_append (by omega), slice_append (by omega),
        front _ (by omega)]
  | flushAll | verbosity | version | quit | noOp => exact parseBinOp_append m b complete more _
  | _ =>
      dsimp only
      rw [parseBinUnknown, parseBinUnknown, parseBinOp_append m b complete more]

end Raids.Memcached
