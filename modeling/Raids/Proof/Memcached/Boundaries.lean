import Raids.Proof.Memcached.Framing

namespace Raids.Memcached
open MemcachedArgs

/-- The length of the line end behind the data, as far as it was received. -/
def terminatorLength : Bytes → Nat
  | [] => 0
  | [c] => if c = cr ∨ c = lf then 1 else 0
  | c :: d :: _ => if c = lf then 1 else if c = cr ∧ d = lf then 2 else 0

/-- The bytes behind the data of a storage request. -/
def afterData (m : MemcachedMsg) (s : Bytes) : Bytes := (s.drop (eol s + 1)).drop m.msglen

/-- The length of the request that starts the bytes: header and body, or line, data and line end,
or the line. -/
def requestLength (m : MemcachedMsg) (s : Bytes) : Nat :=
  if s.head? = some binMagic then MemcachedBinHdr.size + bodyLength s
  else if m.command.isStorage then
    eol s + 1 + m.msglen + terminatorLength (afterData m s)
  else eol s + 1

/-- The consumed length is the skipped prefix and the request, and the pointers lie inside. -/
structure Framed (buf : Bytes) (u : Unpacked) : Prop where
  within : u.length ≤ buf.length
  exact : ∃ pre s, buf = pre ++ s ∧ Blanks pre ∧ StartsRequest s ∧
    u.length = pre.length + requestLength u.msg s
  inside : ∀ p ∈ u.msg.pointers, p.Inside 0 (buf.take u.length)

/-- A complete binary retrieval has only its key, and the bytes behind the data of a complete
storage request that are taken as its line end are one. -/
structure Regular (room : Nat → Bool) (buf : Bytes) : Prop where
  retrieval : ∀ pre s, buf = pre ++ s → Blanks pre → s.head? = some binMagic → CompleteBin s →
    (binCommand s).isRetrieval → keyLength s = bodyLength s
  terminated : ∀ pre s m, buf = pre ++ s → Blanks pre → StartsRequest s →
    s.head? ≠ some binMagic → lf ∈ s → parseFirst room pre.length s = .ok m →
    m.command.isStorage → m.msglen ≤ (s.drop (eol s + 1)).length →
    eaten (afterData m s) = terminatorLength (afterData m s)

theorem eaten_le (rest : Bytes) : eaten rest ≤ rest.length := by
  match rest with
  | [] => exact Nat.le_refl 0
  | [c] =>
      rw [eaten]
      split
      · exact Nat.le_refl 1
      · exact Nat.zero_le 1
  | c :: d :: rest =>
      simp only [eaten, List.length_cons]
      split
      · split <;> omega
      · omega

theorem startsRequest_magic {s : Bytes} (magic : s.head? = some binMagic) : StartsRequest s := by
  intro line rest split blank
  obtain ⟨nonempty, notMagic⟩ := blankLine_head blank
  rw [split, List.head?_append_of_ne_nil _ nonempty] at magic
  exact notMagic magic

/-- The bytes up to a place behind the first line. -/
theorem take_line (pre content rest : Bytes) (n : Nat) :
    (pre ++ (content ++ lf :: rest)).take (pre.length + (content.length + 1) + n) =
      pre ++ (content ++ lf :: rest.take n) := by
  rw [Nat.add_assoc, List.take_length_add_append, Nat.add_assoc, List.take_length_add_append,
    Nat.add_comm, List.take_succ_cons]

/-- The pointers of a parsed line lie inside every prefix that holds the line. -/
theorem parseFirst_inside {room : Nat → Bool} {pre content rest : Bytes} {m : MemcachedMsg}
    (noLf : lf ∉ content) (ok : parseFirst room pre.length (content ++ lf :: rest) = .ok m)
    (n : Nat) : ∀ p ∈ m.pointers, p.Inside 0
      ((pre ++ (content ++ lf :: rest)).take (pre.length + (content.length + 1) + n)) := by
  intro p member
  have inside := parseLine_inside ok p member
  rw [commandLine_append noLf, blanks_append noLf] at inside
  generalize same : ((dropCr content).takeWhile (· = space)).length = b at inside
  have bounded : b ≤ (dropCr content).length := by
    rw [← same]
    exact (List.takeWhile_sublist _).length_le
  have front : (pre ++ (dropCr content).take b).length = pre.length + b := by
    rw [List.length_append, List.length_take, Nat.min_eq_left bounded]
  have whole : ∃ back, (pre ++ (content ++ lf :: rest)).take
      (pre.length + (content.length + 1) + n) =
        (pre ++ (dropCr content).take b) ++ (dropCr content).drop b ++ back := by
    rw [take_line, List.append_assoc pre, List.take_append_drop]
    rcases dropCr_cases content with plain | ended
    · exact ⟨lf :: rest.take n, by rw [← plain, List.append_assoc]⟩
    · refine ⟨cr :: lf :: rest.take n, ?_⟩
      conv_lhs => rw [ended]
      simp only [List.append_assoc, List.singleton_append]
  obtain ⟨back, split⟩ := whole
  rw [split]
  apply Inside.extend
  rwa [front, Nat.zero_add]

/-- A text request is taken whole when its line parses and its data is there. -/
theorem unpackText_ok {room : Nat → Bool} {j : Nat} {s : Bytes}
    (ok : (unpackText room j s).status = .ok) : ∃ m, parseFirst room j s = .ok m ∧
      ((m.command.isStorage = false ∧ unpackText room j s = ⟨.ok, j + (eol s + 1), m⟩) ∨
        (m.command.isStorage = true ∧ m.msglen ≤ (s.drop (eol s + 1)).length ∧
          unpackText room j s = ⟨.ok, j + (eol s + 1) + (m.msglen + eaten (afterData m s)),
            { m with msg := some ⟨j + (eol s + 1), (s.drop (eol s + 1)).take m.msglen⟩ }⟩)) := by
  rw [unpackText] at ok ⊢
  cases parsed : parseFirst room j s with
  | error status =>
      simp only [parsed] at ok
      exact absurd ok (parseLine_error parsed)
  | ok m =>
      simp only [parsed] at ok ⊢
      refine ⟨m, rfl, ?_⟩
      cases storage : m.command.isStorage with
      | false => exact .inl ⟨rfl, by simp⟩
      | true =>
          right
          simp only [storage, if_true] at ok ⊢
          split at ok
          · cases ok
          · rename_i complete
            refine ⟨trivial, Nat.not_lt.mp complete, ?_⟩
            rw [if_neg complete, afterData]

/-- A complete storage request is accepted. -/
theorem unpackText_storage {room : Nat → Bool} {j : Nat} {s : Bytes} {m : MemcachedMsg}
    (parsed : parseFirst room j s = .ok m) (storage : m.command.isStorage)
    (complete : m.msglen ≤ (s.drop (eol s + 1)).length) : (unpackText room j s).status = .ok := by
  rw [unpackText]
  simp only [parsed, storage, if_true]
  rw [if_neg (Nat.not_lt.mpr complete)]

section Iff

variable {room : Nat → Bool} {pre s : Bytes}

/-- The frame of a binary request is exact when a retrieval has only its key. -/
theorem framed_bin (skipped : Blanks pre) (magic : s.head? = some binMagic)
    (complete : CompleteBin s) :
    Framed (pre ++ s) (unpack room (pre ++ s)) ↔
      ((binCommand s).isRetrieval → keyLength s = bodyLength s) := by
  have starts := startsRequest_magic magic
  have nonempty : s ≠ [] := by
    intro empty
    simp [empty] at magic
  rw [unpack_request room skipped starts, unpackRequest, if_neg nonempty, if_pos magic]
  obtain ⟨_, length, inside⟩ := unpackBin_complete (pre ++ s).length pre.length complete
  have whole : MemcachedBinHdr.size + bodyLength s ≤ s.length := complete
  have taken : takenLength (binCommand s) (readBinHdr s) =
      if (binCommand s).isRetrieval then keyLength s else bodyLength s := rfl
  constructor
  · intro framed retrieval
    obtain ⟨pre', s', same, skipped', starts', exact_⟩ := framed.exact
    obtain ⟨rfl, rfl⟩ := request_unique skipped skipped' starts starts' same
    rw [length, taken, if_pos retrieval, requestLength, if_pos magic] at exact_
    omega
  · intro regular
    have body : takenLength (binCommand s) (readBinHdr s) = bodyLength s := by
      rw [taken]
      split
      · rename_i retrieval
        exact regular retrieval
      · rfl
    rw [body] at length inside
    apply Framed.mk
    · rw [length, List.length_append]
      omega
    · refine ⟨pre, s, rfl, skipped, starts, ?_⟩
      rw [length, requestLength, if_pos magic, Nat.add_assoc]
    · intro p member
      have here := inside p member
      have header : (pre ++ s.take MemcachedBinHdr.size).length =
          pre.length + MemcachedBinHdr.size := by
        rw [List.length_append, List.length_take, Nat.min_eq_left (by omega)]
      rw [length, Nat.add_assoc, List.take_length_add_append, List.take_add, ← List.append_assoc,
        ← List.append_nil ((pre ++ s.take MemcachedBinHdr.size) ++ _)]
      apply Inside.extend
      rwa [header, Nat.zero_add]

/-- The frame of a text request is exact when the bytes taken behind its data end a line. -/
theorem framed_text (skipped : Blanks pre) (starts : StartsRequest s)
    (notMagic : s.head? ≠ some binMagic) (present : lf ∈ s)
    (ok : (unpack room (pre ++ s)).status = .ok) :
    Framed (pre ++ s) (unpack room (pre ++ s)) ↔
      ∀ m, parseFirst room pre.length s = .ok m → m.command.isStorage →
        m.msglen ≤ (s.drop (eol s + 1)).length →
        eaten (afterData m s) = terminatorLength (afterData m s) := by
  have nonempty : s ≠ [] := List.ne_nil_of_mem present
  rw [unpack_request room skipped starts, unpackRequest, if_neg nonempty, if_neg notMagic,
    if_pos present] at ok ⊢
  obtain ⟨m, parsed, shape⟩ := unpackText_ok ok
  obtain ⟨content, rest, split, noLf, place⟩ := eol_split present
  have size : s.length = content.length + 1 + rest.length := by
    rw [split, List.length_append, List.length_cons]
    omega
  have dropped : s.drop (eol s + 1) = rest := by
    rw [split, drop_eol_append noLf]
  rcases shape with ⟨plain, result⟩ | ⟨storage, complete, result⟩
  · rw [result]
    constructor
    · intro _ m' parsed' storage'
      rw [parsed] at parsed'
      injection parsed' with same
      rw [same, storage'] at plain
      cases plain
    · intro _
      apply Framed.mk
      · simp only [List.length_append]
        omega
      · refine ⟨pre, s, rfl, skipped, starts, ?_⟩
        rw [requestLength, if_neg notMagic, if_neg (by simp [plain])]
      · intro p member
        rw [split] at parsed
        have inside := parseFirst_inside noLf parsed 0 p member
        rwa [Nat.add_zero, ← place, ← split] at inside
  · have bound := eaten_le (afterData m s)
    have behind : (afterData m s).length = rest.length - m.msglen := by
      rw [afterData, dropped, List.length_drop]
    rw [dropped] at complete
    constructor
    · intro framed m' parsed' _ _
      rw [parsed] at parsed'
      injection parsed' with same
      subst same
      obtain ⟨pre', s', same, skipped', starts', exact_⟩ := framed.exact
      obtain ⟨rfl, rfl⟩ := request_unique skipped skipped' starts starts' same
      rw [result, requestLength, if_neg notMagic, if_pos storage] at exact_
      dsimp only [afterData] at exact_ ⊢
      omega
    · intro regular
      have same := regular m parsed storage (by rw [dropped]; exact complete)
      rw [result]
      apply Framed.mk
      · simp only [List.length_append]
        omega
      · refine ⟨pre, s, rfl, skipped, starts, ?_⟩
        rw [requestLength, if_neg notMagic, if_pos storage]
        dsimp only [afterData] at same ⊢
        omega
      · intro p member
        rw [split] at parsed
        rw [MemcachedMsg.pointers] at member
        rcases List.mem_append.mp member with arg | data
        · have inside := parseFirst_inside noLf parsed (m.msglen + eaten (afterData m s)) p
            (List.mem_append_left _ arg)
          rwa [← place, ← split] at inside
        · have here : p = ⟨pre.length + (eol s + 1), rest.take m.msglen⟩ := by
            rw [← dropped]
            simpa using data
          have lineLength : pre.length + (eol s + 1) = 0 + (pre ++ content ++ [lf]).length := by
            simp only [List.length_append, List.length_singleton, place]
            omega
          have whole : (pre ++ s).take (pre.length + (eol s + 1) +
              (m.msglen + eaten (afterData m s))) =
                (pre ++ content ++ [lf]) ++ rest.take (m.msglen + eaten (afterData m s)) ++ [] := by
            rw [place, split, take_line]
            simp only [List.append_assoc, List.append_nil, List.singleton_append]
          rw [whole, here, lineLength]
          apply Inside.extend
          exact inside_take_slice _ 0 (by omega) (by omega)

end Iff

end Raids.Memcached
