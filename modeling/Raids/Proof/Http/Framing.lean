import Raids.Construction.Http.Process

namespace Raids.Http

section Lines

variable {data line rest : Bytes}

theorem nextLine_cons (c : UInt8) (tail : Bytes) :
    nextLine (c :: tail) =
      match tail.dropWhile (· != lf) with
      | [] => none
      | eol :: after => some (c :: tail.takeWhile (· != lf) ++ [eol], after) := rfl

/-- A line has one byte at its front, goes on without line feeds and ends with one. -/
theorem nextLine_iff :
    nextLine data = some (line, rest) ↔
      ∃ c body, lf ∉ body ∧ line = c :: body ++ [lf] ∧ data = line ++ rest := by
  constructor
  · intro found
    cases data with
    | nil => cases found
    | cons c tail =>
        have split := List.takeWhile_append_dropWhile (p := (· != lf)) (l := tail)
        have head := List.head?_dropWhile_not (· != lf) tail
        have body := List.all_takeWhile (p := (· != lf)) (l := tail)
        rw [nextLine_cons] at found
        cases dropped : tail.dropWhile (· != lf) with
        | nil =>
            rw [dropped] at found
            cases found
        | cons eol after =>
            rw [dropped] at found split head
            simp only [Option.some.injEq, Prod.mk.injEq] at found
            obtain ⟨rfl, rfl⟩ := found
            have feed : eol = lf := by simpa using head
            refine ⟨c, tail.takeWhile (· != lf), ?_, by rw [feed], ?_⟩
            · intro member
              have other := List.all_eq_true.mp body lf member
              simp at other
            · rw [List.append_assoc, List.singleton_append, List.cons_append, split]
  · rintro ⟨c, body, none, rfl, rfl⟩
    have other : ∀ x ∈ body, (x != lf) = true := by
      intro x member
      rw [bne_iff_ne]
      exact fun same => none (same ▸ member)
    rw [List.append_assoc, List.cons_append, nextLine_cons, List.dropWhile_append_of_pos other,
      List.takeWhile_append_of_pos other]
    simp

/-- More data does not change a line. -/
theorem nextLine_append (found : nextLine data = some (line, rest)) (more : Bytes) :
    nextLine (data ++ more) = some (line, rest ++ more) := by
  obtain ⟨c, body, none, shape, rfl⟩ := nextLine_iff.mp found
  exact nextLine_iff.mpr ⟨c, body, none, shape, List.append_assoc _ _ _⟩

end Lines

/-- A head is some lines with a line of at most two bytes behind them. -/
def EndsWithBlankLine (head : Bytes) : Prop :=
  ∃ lines blank, head = lines ++ blank ∧ lines.getLast? = some lf ∧ blank.getLast? = some lf ∧
    blank.length ≤ 2

section Headers

variable {fuel used : Nat} {req : Option HttpReq} {data : Bytes}

/-- The lines in front of the data end with a line feed, once there is a request. -/
theorem decodeHeaders_blank (before : Bytes) {found : HttpReq} {size : Nat}
    (lines : req.isSome → before.getLast? = some lf)
    (decoded : decodeHeaders fuel req used data = .blank found size) :
    ∃ count ≤ data.length, size = used + count ∧ 0 < count ∧
      EndsWithBlankLine (before ++ data.take count) := by
  induction fuel generalizing req used data before with
  | zero => cases decoded
  | succ fuel ih =>
      rw [decodeHeaders] at decoded
      split at decoded
      · cases req <;> cases decoded
      · split at decoded
        · split at decoded <;> cases decoded
        · rename_i line rest next
          obtain ⟨c, body, -, shape, rfl⟩ := nextLine_iff.mp next
          have feed : line.getLast? = some lf := by rw [shape, List.getLast?_append]; rfl
          have positive : 0 < line.length := by rw [shape]; simp
          split at decoded
          · rename_i short
            cases req with
            | none => cases decoded
            | some req =>
                simp only [Option.elim_some, HeaderEnd.blank.injEq] at decoded
                obtain ⟨rfl, rfl⟩ := decoded
                refine ⟨line.length, by simp, rfl, positive, before, line, ?_, lines rfl, feed, short⟩
                rw [List.take_left]
          · have further : ∃ req', decodeHeaders fuel (some req') (used + line.length) rest =
                .blank found size := by
              cases req with
              | none =>
                  simp only at decoded
                  cases version : parseVersion line with
                  | none =>
                      rw [version] at decoded
                      cases decoded
                  | some req' =>
                      rw [version] at decoded
                      exact ⟨req', decoded⟩
              | some req => exact ⟨_, decoded⟩
            obtain ⟨req', later⟩ := further
            have feeds : (before ++ line).getLast? = some lf := by
              rw [List.getLast?_append, feed]
              rfl
            obtain ⟨count, bound, total, some, ends⟩ := ih _ (fun _ => feeds) later
            refine ⟨line.length + count, by simp; omega, by omega, by omega, ?_⟩
            rw [List.take_length_add_append, ← List.append_assoc]
            exact ends

/-- The end of the headers, and a request line that is refused, stay when more data arrives. -/
theorem decodeHeaders_append {more : Bytes} {fuel' : Nat} (enough : fuel ≤ fuel')
    {result : HeaderEnd} (decoded : decodeHeaders fuel req used data = result)
    (settled : result = .close ∨ ∃ found size, result = .blank found size) :
    decodeHeaders fuel' req used (data ++ more) = result := by
  induction fuel generalizing req used data fuel' with
  | zero =>
      rw [decodeHeaders] at decoded
      subst decoded
      rcases settled with settled | ⟨_, _, settled⟩ <;> cases settled
  | succ fuel ih =>
      obtain ⟨fuel', rfl⟩ : ∃ less, fuel' = less + 1 := ⟨fuel' - 1, by omega⟩
      rw [decodeHeaders] at decoded
      rw [decodeHeaders]
      split at decoded
      · subst decoded
        rcases settled with settled | ⟨_, _, settled⟩ <;> cases req <;> cases settled
      · rename_i some
        have still : ¬(data ++ more).isEmpty = true := by
          cases data with
          | nil => exact absurd rfl some
          | cons c data => simp
        rw [if_neg still]
        split at decoded
        · subst decoded
          rcases settled with settled | ⟨_, _, settled⟩ <;> split at settled <;> cases settled
        · rename_i line rest next
          rw [nextLine_append next more]
          simp only
          split at decoded
          · rename_i short
            rw [if_pos short]
            exact decoded
          · rename_i long
            rw [if_neg long]
            cases req with
            | none =>
                simp only at decoded ⊢
                cases version : parseVersion line with
                | none =>
                    rw [version] at decoded
                    exact decoded
                | some req =>
                    rw [version] at decoded
                    exact ih (by omega) decoded
            | some req => exact ih (by omega) decoded

end Headers

/-- The address behind a buffer of a process. -/
def addressSpace : Nat := 2 ^ 47

/-- Headers that are cut at the end of a line want more bytes than there are, and no body ends
behind the last address. -/
def HeaderEnd.regular (length : Nat) : HeaderEnd → Bool
  | .cut req => length < req.contentLength && req.contentLength + addressSpace < 2 ^ 64
  | .blank req used => used + req.contentLength + addressSpace < 2 ^ 64
  | _ => true

/-- Data with regular headers. -/
def Regular (data : Bytes) : Prop := (headersOf data).regular data.length = true

instance (data : Bytes) : Decidable (Regular data) := inferInstanceAs (Decidable (_ = true))

/-- A request is framed once its headers and its whole body are there. -/
def frameWhole (data : Bytes) : Framing :=
  match headersOf data with
  | .wait => .wait
  | .long => .close
  | .close => .close
  | .cut _ => .wait
  | .blank req used =>
      if data.length < used + req.contentLength then .wait
      else
        .request { req with data := (data.drop used).take req.contentLength }
          (used + req.contentLength)

section Frames

variable {data : Bytes} {addr : Nat} {req : HttpReq} {size : Nat}

/-- The end of a body that is behind no last address is compared as it is. -/
theorem frameBody_eq {used : Nat} (placed : addr + data.length ≤ addressSpace)
    (fits : used + req.contentLength + addressSpace < 2 ^ 64) :
    frameBody addr data req used =
      if data.length < used + req.contentLength then .wait
      else
        .request { req with data := (data.drop used).take req.contentLength }
          (used + req.contentLength) := by
  unfold addressSpace at placed fits
  have small : (used + req.contentLength) % 2 ^ 64 = used + req.contentLength := by omega
  have address : (addr + (used + req.contentLength)) % 2 ^ 64 =
      addr + (used + req.contentLength) := by omega
  simp only [frameBody, small, address, Nat.add_lt_add_iff_left]

/-- Regular data is framed as a whole. -/
theorem frameRequest_eq (placed : addr + data.length ≤ addressSpace) (regular : Regular data) :
    frameRequest addr data = frameWhole data := by
  unfold Regular at regular
  unfold frameRequest frameWhole
  cases headers : headersOf data with
  | wait => rfl
  | long => rfl
  | close => rfl
  | cut req =>
      rw [headers] at regular
      simp only [HeaderEnd.regular, Bool.and_eq_true, decide_eq_true_eq] at regular
      obtain ⟨more, fits⟩ := regular
      simp only
      rw [frameBody_eq placed (by omega), if_pos (by omega)]
  | blank req used =>
      rw [headers] at regular
      exact frameBody_eq placed (by simpa only [HeaderEnd.regular, decide_eq_true_eq] using regular)

/-- A framed request has its headers and its body. -/
theorem frameWhole_request (framed : frameWhole data = .request req size) :
    ∃ found used, headersOf data = .blank found used ∧ size = used + found.contentLength ∧
      size ≤ data.length ∧
      req = { found with data := (data.drop used).take found.contentLength } := by
  unfold frameWhole at framed
  cases headers : headersOf data with
  | wait => rw [headers] at framed; cases framed
  | long => rw [headers] at framed; cases framed
  | close => rw [headers] at framed; cases framed
  | cut found => rw [headers] at framed; cases framed
  | blank found used =>
      rw [headers] at framed
      simp only at framed
      split at framed
      · cases framed
      · rename_i enough
        simp only [Framing.request.injEq] at framed
        exact ⟨found, used, rfl, framed.2.symm, by omega, framed.1.symm⟩

/-- A framed request is headers up to a blank line and a body of the content length. -/
theorem frameWhole_whole (framed : frameWhole data = .request req size) :
    0 < size ∧ size ≤ data.length ∧ ∃ head, EndsWithBlankLine head ∧
      data.take size = head ++ req.data ∧ req.data.length = req.contentLength := by
  obtain ⟨found, used, headers, total, bound, rfl⟩ := frameWhole_request framed
  have blank : decodeHeaders (data.length + 1) none 0 data = .blank found used := headers
  obtain ⟨count, inside, rfl, positive, ends⟩ :=
    decodeHeaders_blank [] (fun some => by cases some) blank
  refine ⟨by omega, bound, data.take (0 + count), by simpa using ends, ?_, ?_⟩
  · rw [total, List.take_add]
  · simp only [List.length_take, List.length_drop]
    omega

/-- A framed request is framed with more data behind it. -/
theorem frameWhole_append (framed : frameWhole data = .request req size) (more : Bytes) :
    frameWhole (data ++ more) = .request req size := by
  obtain ⟨found, used, headers, total, bound, rfl⟩ := frameWhole_request framed
  have longer : headersOf (data ++ more) = .blank found used :=
    decodeHeaders_append (by simp) headers (Or.inr ⟨_, _, rfl⟩)
  unfold frameWhole
  rw [longer]
  simp only
  rw [if_neg (by rw [List.length_append]; omega), total,
    List.drop_append_of_le_length (by omega), List.take_append_of_le_length]
  rw [List.length_drop]
  omega

/-- Regular data that frames a request is regular with more data behind it. -/
theorem regular_append (regular : Regular data) (framed : frameWhole data = .request req size)
    (more : Bytes) : Regular (data ++ more) := by
  obtain ⟨found, used, headers, -⟩ := frameWhole_request framed
  have longer : headersOf (data ++ more) = .blank found used :=
    decodeHeaders_append (by simp) headers (Or.inr ⟨_, _, rfl⟩)
  unfold Regular at regular ⊢
  rw [headers] at regular
  rw [longer]
  exact regular

/-- A refused request line stays refused. -/
theorem headersOf_close_append (refused : headersOf data = .close) (more : Bytes) :
    headersOf (data ++ more) = .close :=
  decodeHeaders_append (by simp) refused (Or.inl rfl)

/-- The connection is closed by a line that is too long or by a request line. -/
theorem frameWhole_close (framed : frameWhole data = .close) :
    headersOf data = .long ∨ headersOf data = .close := by
  unfold frameWhole at framed
  cases headers : headersOf data with
  | wait => rw [headers] at framed; cases framed
  | long => exact Or.inl rfl
  | close => exact Or.inr rfl
  | cut found => rw [headers] at framed; cases framed
  | blank found used =>
      rw [headers] at framed
      simp only at framed
      split at framed <;> cases framed

end Frames

end Raids.Http
