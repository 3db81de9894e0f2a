import Raids.Proof.Memcached.SplitLoop

namespace Raids.Memcached
open BigEndian

variable {α : Type}

/-- The bytes of a datagram. -/
def Mmsghdr.bytes (d : Mmsghdr α) : Bytes := d.iov.flatten

/-- The datagrams of one response: their payloads are the response in order, their headers number
them and tell how many there are, and only the last one may have space left. -/
structure Segments (fs : Nat) (r : Response α) (ds : List (Mmsghdr α)) : Prop where
  nonempty : ds = [] ↔ r.iov = []
  address : ∀ d ∈ ds, d.name = r.name
  payload : (ds.map fun d => d.bytes.drop mcHdrSize).flatten = r.iov.flatten.drop mcHdrSize
  reqId : ∀ d ∈ ds, d.bytes.take 2 = r.iov.flatten.take 2
  seqno : ∀ x d, ds[x]? = some d → value ((d.bytes.drop 2).take 2) = x
  total : ∀ d ∈ ds, value ((d.bytes.drop 4).take 2) = ds.length
  size : ∀ d ∈ ds, d.bytes.length ≤ fs
  full : ∀ d ∈ ds.dropLast, d.bytes.length = fs

/-- The number of datagrams that a response needs. -/
def datagramCount (fs : Nat) (iov : List Bytes) : Nat := frameOf fs (lastPlace iov 0) + 1

/-- The header with a number and a total. -/
def hdrBytes (req other : Bytes) (x n : Nat) : Bytes := req ++ digits 2 x ++ digits 2 n ++ other

/-- The bytes of the datagrams of a response. -/
def datagramBytes (req other t : Bytes) (gs : List (List Bytes)) : List Bytes :=
  (hdrBytes req other 0 (gs.length + 1) ++ t) ::
    gs.mapIdx fun x entries => hdrBytes req other (x + 1) (gs.length + 1) ++ entries.flatten

section Bytes

variable {req other t : Bytes} (two : req.length = 2) (two' : other.length = 2)
include two two'

theorem hdrBytes_length (x n : Nat) : (hdrBytes req other x n).length = mcHdrSize := by
  simp [hdrBytes, two, two', mcHdrSize]

theorem hdrBytes_append (x n : Nat) (rest : Bytes) :
    (hdrBytes req other x n ++ rest).take 2 = req ∧
      value (((hdrBytes req other x n ++ rest).drop 2).take 2) = x % 2 ^ 16 ∧
      value (((hdrBytes req other x n ++ rest).drop 4).take 2) = n % 2 ^ 16 ∧
      (hdrBytes req other x n ++ rest).drop mcHdrSize = rest := by
  have size := hdrBytes_length two two' x n
  have four : (req ++ digits 2 x).length = 4 := by simp [two]
  refine ⟨?_, ?_, ?_, ?_⟩
  · rw [hdrBytes, List.append_assoc, List.append_assoc, List.append_assoc, List.take_left' two]
  · rw [hdrBytes, List.append_assoc, List.append_assoc, List.append_assoc, List.drop_left' two,
      List.take_left' (length_digits 2 x), value_digits, show 256 ^ 2 = 2 ^ 16 by rfl]
  · rw [hdrBytes, List.append_assoc, List.append_assoc, List.drop_left' four,
      List.take_left' (length_digits 2 n), value_digits, show 256 ^ 2 = 2 ^ 16 by rfl]
  · rw [List.drop_left' size]

omit two two' in
/-- The sizes of the datagrams are full exactly when their entries are. -/
theorem full_iff {fs : Nat} (header : mcHdrSize < fs) (g : List Bytes) (gs : List (List Bytes))
    (space : Nat) (fits : space ≤ fs) :
    (∀ n ∈ ((bytesOf g + (fs - space)) :: gs.map fun e => mcHdrSize + bytesOf e).dropLast, n = fs) ↔
      AllFull fs space (g :: gs) := by
  induction gs generalizing g space with
  | nil => simp [AllFull]
  | cons g' gs ih =>
      have later := ih g' (fs - mcHdrSize) (Nat.sub_le _ _)
      rw [show bytesOf g' + (fs - (fs - mcHdrSize)) = mcHdrSize + bytesOf g' by omega] at later
      rw [List.map_cons, List.dropLast_cons_cons, List.forall_mem_cons, later, AllFull]
      have here : bytesOf g + (fs - space) = fs ↔ bytesOf g = space := by omega
      rw [here]

omit two two' in
theorem noneOver_le {fs : Nat} (header : mcHdrSize < fs) {g : List Bytes} {gs : List (List Bytes)}
    {space : Nat} (fits : space ≤ fs) (none : NoneOver fs space (g :: gs)) :
    ∀ n ∈ ((bytesOf g + (fs - space)) :: gs.map fun e => mcHdrSize + bytesOf e), n ≤ fs := by
  induction gs generalizing g space with
  | nil =>
      have less := none.1
      simp
      omega
  | cons g' gs ih =>
      have later := ih (Nat.sub_le _ _) none.2
      rw [show bytesOf g' + (fs - (fs - mcHdrSize)) = mcHdrSize + bytesOf g' by omega] at later
      have less := none.1
      intro n member
      rcases List.mem_cons.mp member with here | there
      · rw [here]
        omega
      · exact later n there

/-- What every datagram of a response looks like. -/
theorem mem_datagramBytes {gs : List (List Bytes)} {d : Bytes}
    (member : d ∈ datagramBytes req other t gs) :
    ∃ x rest, d = hdrBytes req other x (gs.length + 1) ++ rest := by
  rw [datagramBytes] at member
  rcases List.mem_cons.mp member with first | later
  · exact ⟨0, t, first⟩
  · obtain ⟨x, _, same⟩ := List.mem_mapIdx.mp later
    exact ⟨x + 1, _, same.symm⟩

theorem datagramBytes_lengths (g : List Bytes) (gs : List (List Bytes))
    (first : bytesOf g = mcHdrSize + t.length) :
    (datagramBytes req other t gs).map List.length =
      bytesOf g :: gs.map fun e => mcHdrSize + bytesOf e := by
  rw [datagramBytes, List.map_cons, List.length_append, hdrBytes_length two two', first]
  congr 1
  apply List.ext_getElem
  · simp
  · intro i _ _
    simp [hdrBytes_length two two', bytesOf]

/-- The total of a header tells the number of datagrams only when they are few. -/
theorem segments_few {fs : Nat} {r : Response α} {ds : List (Mmsghdr α)} {gs : List (List Bytes)}
    (bytes : ds.map Mmsghdr.bytes = datagramBytes req other t gs) (segments : Segments fs r ds) :
    gs.length + 1 < 2 ^ 16 := by
  have count : ds.length = gs.length + 1 := by
    rw [← List.length_map Mmsghdr.bytes, bytes]
    simp [datagramBytes]
  obtain ⟨d, more, split⟩ := List.exists_cons_of_length_eq_add_one count
  have member : d.bytes ∈ datagramBytes req other t gs := by
    rw [← bytes, split]
    simp
  obtain ⟨x, rest, same⟩ := mem_datagramBytes two two' member
  have total := segments.total d (by simp [split])
  rw [same, (hdrBytes_append two two' x _ rest).2.2.1, count] at total
  omega

/-- The frames of a response are a segmentation exactly when they are full and few. -/
theorem segments_iff {fs : Nat} (header : mcHdrSize < fs) {r : Response α} (nonempty : r.iov ≠ [])
    (ds : List (Mmsghdr α)) (g : List Bytes) (gs : List (List Bytes))
    (address : ∀ d ∈ ds, d.name = r.name)
    (bytes : ds.map Mmsghdr.bytes = datagramBytes req other t gs)
    (start : g.flatten = hdrBytes req other 0 1 ++ t)
    (whole : r.iov.flatten = g.flatten ++ (gs.map List.flatten).flatten)
    (none : NoneOver fs fs (g :: gs)) :
    Segments fs r ds ↔ AllFull fs fs (g :: gs) ∧ gs.length + 1 < 2 ^ 16 := by
  have count : ds.length = gs.length + 1 := by
    rw [← List.length_map Mmsghdr.bytes, bytes]
    simp [datagramBytes]
  have shape : ∀ d ∈ ds, ∃ x rest, d.bytes = hdrBytes req other x (gs.length + 1) ++ rest := by
    intro d member
    apply mem_datagramBytes two two'
    rw [← bytes]
    exact List.mem_map_of_mem member
  have first : bytesOf g = mcHdrSize + t.length := by
    rw [bytesOf, start, List.length_append, hdrBytes_length two two']
  have lengths := datagramBytes_lengths two two' g gs first
  have req' : r.iov.flatten.take 2 = req := by
    rw [whole, start, List.append_assoc]
    exact (hdrBytes_append two two' 0 1 _).1
  constructor
  · intro segments
    constructor
    · apply (full_iff header g gs fs (Nat.le_refl _)).mp
      rw [Nat.sub_self, Nat.add_zero, ← lengths, ← bytes, List.map_map, ← List.map_dropLast]
      intro n member
      obtain ⟨d, inside, same⟩ := List.mem_map.mp member
      rw [← same]
      exact segments.full d inside
    · exact segments_few two two' bytes segments
  · rintro ⟨full, few⟩
    apply Segments.mk
    · constructor
      · intro empty
        rw [empty] at count
        simp at count
      · intro empty
        exact absurd empty nonempty
    · exact address
    · have payloads : ds.map (fun d => d.bytes.drop mcHdrSize) = t :: gs.map List.flatten := by
        rw [show (fun d : Mmsghdr α => d.bytes.drop mcHdrSize) =
          (fun b : Bytes => b.drop mcHdrSize) ∘ Mmsghdr.bytes from rfl, ← List.map_map, bytes,
          datagramBytes, List.map_cons, (hdrBytes_append two two' _ _ _).2.2.2]
        congr 1
        apply List.ext_getElem
        · simp
        · intro i _ _
          rw [List.getElem_map, List.getElem_mapIdx, List.getElem_map,
            (hdrBytes_append two two' _ _ _).2.2.2]
      rw [payloads, whole, start, List.append_assoc, (hdrBytes_append two two' _ _ _).2.2.2]
      rfl
    · intro d member
      obtain ⟨x, rest, same⟩ := shape d member
      rw [same, (hdrBytes_append two two' x _ rest).1, req']
    · intro x d place
      have place' : (datagramBytes req other t gs)[x]? = some d.bytes := by
        rw [← bytes, List.getElem?_map, place]
        rfl
      rw [datagramBytes] at place'
      cases x with
      | zero =>
          injection place' with same
          rw [← same, (hdrBytes_append two two' _ _ _).2.1, Nat.zero_mod]
      | succ x =>
          rw [List.getElem?_cons_succ, List.getElem?_mapIdx] at place'
          obtain ⟨entries, here, same⟩ := Option.map_eq_some_iff.mp place'
          obtain ⟨inside, _⟩ := List.getElem?_eq_some_iff.mp here
          rw [← same, (hdrBytes_append two two' _ _ _).2.1, Nat.mod_eq_of_lt]
          omega
    · intro d member
      obtain ⟨x, rest, same⟩ := shape d member
      rw [same, (hdrBytes_append two two' x _ rest).2.2.1, count, Nat.mod_eq_of_lt few]
    · intro d member
      have small := noneOver_le header (Nat.le_refl fs) none
      rw [Nat.sub_self, Nat.add_zero, ← lengths, ← bytes, List.map_map] at small
      exact small _ (List.mem_map_of_mem member)
    · have sizes := (full_iff header g gs fs (Nat.le_refl _)).mpr full
      rw [Nat.sub_self, Nat.add_zero, ← lengths, ← bytes, List.map_map, ← List.map_dropLast] at sizes
      intro d member
      exact sizes _ (List.mem_map_of_mem member)

end Bytes

/-- The first buffer of a response has its header, and more. -/
theorem exists_header {first : Bytes} (eight : mcHdrSize ≤ first.length)
    (fields : (first.drop 2).take 4 = [0, 0, 0, 1]) :
    ∃ req other t, req.length = 2 ∧ other.length = 2 ∧ first = hdrBytes req other 0 1 ++ t := by
  rw [mcHdrSize] at eight
  refine ⟨first.take 2, (first.drop 6).take 2, first.drop 8, ?_, ?_, ?_⟩
  · rw [List.length_take]
    omega
  · rw [List.length_take, List.length_drop]
    omega
  · have middle : digits 2 0 ++ digits 2 1 = (first.drop 2).take 4 := fields.symm
    have behind : (first.drop 6).take 2 ++ first.drop 8 = first.drop 6 := by
      rw [show 8 = 6 + 2 by rfl, ← List.drop_drop, List.take_append_drop]
    rw [hdrBytes, List.append_assoc (first.take 2), middle, ← List.take_add, List.append_assoc,
      behind]
    exact (List.take_append_drop 6 first).symm

/-- The fixed headers of the frames. -/
theorem fixHeaders_bytes {req other t : Bytes} (two : req.length = 2) (two' : other.length = 2)
    (name : α) {d : Bytes} (tail : List Bytes) (gs : List (List Bytes))
    (start : d = hdrBytes req other 0 1 ++ t) :
    (fixHeaders name (d :: tail, gs)).map Mmsghdr.bytes =
      datagramBytes req other (t ++ tail.flatten) gs := by
  have eight : (req ++ digits 2 0).length = 4 := by simp [two]
  have total : ∀ n, setTotal d n = hdrBytes req other 0 n ++ t := by
    intro n
    have six : (req ++ digits 2 0 ++ digits 2 1).length = 6 := by simp [two]
    rw [setTotal, start, hdrBytes, List.append_assoc (req ++ digits 2 0 ++ digits 2 1),
      List.drop_left' six, List.append_assoc (req ++ digits 2 0), List.take_left' eight, hdrBytes]
    simp only [List.append_assoc]
  have number : ∀ x n, setSeqno (hdrBytes req other 0 n) x = hdrBytes req other x n := by
    intro x n
    rw [setSeqno, hdrBytes, List.append_assoc (req ++ digits 2 0), List.drop_left' eight,
      List.append_assoc req, List.take_left' two, hdrBytes]
    simp only [List.append_assoc]
  rw [fixHeaders, datagramBytes]
  split
  · rename_i single
    have none : gs = [] := by
      cases gs with
      | nil => rfl
      | cons g gs =>
          simp [entryCount] at single
          omega
    subst none
    simp [Mmsghdr.bytes, start]
  · rw [List.map_cons]
    congr 1
    · simp [Mmsghdr.bytes, total]
    · have size := hdrBytes_length two two' 0 (gs.length + 1)
      apply List.ext_getElem
      · simp
      · intro i _ _
        simp only [List.headD_cons, List.getElem_map, List.getElem_mapIdx, total, Mmsghdr.bytes,
          List.flatten_cons, List.take_left' size, number]

theorem fixHeaders_name (name : α) (frames : List Bytes × List (List Bytes)) :
    ∀ d ∈ fixHeaders name frames, d.name = name := by
  intro d member
  rw [fixHeaders] at member
  split at member
  · rw [List.mem_singleton.mp member]
  · rcases List.mem_cons.mp member with first | later
    · rw [first]
    · obtain ⟨x, _, same⟩ := List.mem_mapIdx.mp later
      rw [← same]

section Response

variable {fs : Nat}

/-- The loop over a response starts with the whole frame size. -/
def loopOf (fs : Nat) (r : Response α) : Option (List Bytes × List (List Bytes)) :=
  splitLoop fs (steps r.iov) r.iov 0 0 fs

/-- The first entry is a prefix of the first buffer and holds the header. -/
theorem splitLoop_head (header : mcHdrSize < fs) {fuel : Nat} {b : Bytes} {rest : List Bytes}
    {res : List Bytes × List (List Bytes)} (eight : mcHdrSize ≤ b.length)
    (done : splitLoop fs fuel (b :: rest) 0 0 fs = some res) :
    ∃ d tail more, res.1 = d :: tail ∧ b = d ++ more ∧ mcHdrSize ≤ d.length := by
  rw [mcHdrSize] at header eight
  have notFresh : ¬(0 = 0 ∧ fs = fs - mcHdrSize) := by
    rw [mcHdrSize]
    omega
  cases fuel with
  | zero => cases done
  | succ fuel =>
      rw [splitLoop_cons, List.drop_zero] at done
      have long : mcHdrSize ≤ (b.take (fs - 0)).length := by
        rw [mcHdrSize, List.length_take]
        omega
      split at done
      · obtain ⟨later, _, same⟩ := Option.map_eq_some_iff.mp done
        rw [← same, addEntry, if_neg notFresh]
        exact ⟨b, later.1, [], rfl, (List.append_nil b).symm, eight⟩
      · split at done
        · obtain ⟨later, _, same⟩ := Option.map_eq_some_iff.mp done
          rw [← same, addEntry, if_neg notFresh]
          exact ⟨_, later.1, b.drop (fs - 0), rfl, (List.take_append_drop _ b).symm, long⟩
        · obtain ⟨later, _, same⟩ := Option.map_eq_some_iff.mp done
          rw [← same, addEntry, if_neg notFresh]
          exact ⟨_, later.1, b.drop (fs - 0), rfl, (List.take_append_drop _ b).symm, long⟩

/-- The result of the loop has the bytes of the response, within the space of its datagrams. -/
theorem loopOf_frames (header : mcHdrSize < fs) {r : Response α}
    {res : List Bytes × List (List Bytes)} (small : ∀ c ∈ r.iov, c.length < 2 ^ 32)
    (nonempty : r.iov ≠ []) (done : loopOf fs r = some res) :
    Frames fs r.iov 0 0 (res.1 :: res.2) := by
  rw [loopOf] at done
  have len := lenAt_zero header
  have next := nextAt_zero header
  cases buffers : r.iov with
  | nil => exact absurd buffers nonempty
  | cons b rest =>
      rw [buffers] at done small
      have frames := splitLoop_frames header small (Frames.inside_zero _)
        (by rw [len, next]; exact done)
      rw [len, next, framesFrom, if_neg (by rw [mcHdrSize] at header ⊢; omega)] at frames
      exact frames

theorem allFull_even (header : mcHdrSize < fs) {iov : List Bytes} {gs : List (List Bytes)}
    (nonempty : iov ≠ []) (frames : Frames fs iov 0 0 gs) :
    AllFull fs fs gs ↔ Even fs iov 0 := by
  have len := lenAt_zero header
  have next := nextAt_zero header
  cases iov with
  | nil => exact absurd rfl nonempty
  | cons b rest =>
      have full := frames.allFull_iff header b rest rfl (Frames.inside_zero _)
      rw [len, next, Nat.sub_zero, Nat.sub_zero] at full
      exact full

theorem frames_count (header : mcHdrSize < fs) {iov : List Bytes} {gs : List (List Bytes)}
    (nonempty : iov ≠ []) (frames : Frames fs iov 0 0 gs) (even : Even fs iov 0) :
    gs.length = datagramCount fs iov := by
  cases iov with
  | nil => exact absurd rfl nonempty
  | cons b rest =>
      have count := frames.count header b rest rfl (Frames.inside_zero _) even
      have zero : frameOf fs 0 = 0 := by
        rw [frameOf, if_pos (Nat.lt_of_le_of_lt (Nat.zero_le _) header)]
      rw [zero, Nat.zero_add, List.drop_zero] at count
      exact count

theorem frames_whole (header : mcHdrSize < fs) {iov : List Bytes} {gs : List (List Bytes)}
    (nonempty : iov ≠ []) (frames : Frames fs iov 0 0 gs) :
    (gs.map List.flatten).flatten = iov.flatten ∧ NoneOver fs fs gs := by
  have len := lenAt_zero header
  have next := nextAt_zero header
  have none := frames.noneOver header
  rw [len, next, Nat.sub_zero] at none
  cases iov with
  | nil => exact absurd rfl nonempty
  | cons b rest => exact ⟨frames.bytes b rest rfl, none⟩

/-- Few datagrams have short buffers. -/
theorem small_of_count {fs : FrameSize} {iov : List Bytes}
    (few : datagramCount fs.size iov < 2 ^ 16) : ∀ c ∈ iov, c.length < 2 ^ 32 := by
  have header := fs.header
  have datagram := fs.datagram
  rw [mcHdrSize] at header
  have whole : iov.flatten.length ≤ lastPlace iov 0 + 1 := by
    rw [lastPlace]
    split <;> omega
  have place : lastPlace iov 0 < 2 ^ 32 - 1 := by
    rw [datagramCount, frameOf, mcHdrSize] at few
    split at few
    · omega
    · have quotient : (lastPlace iov 0 - fs.size) / (fs.size - 8) < 2 ^ 16 - 2 := by omega
      rw [Nat.div_lt_iff_lt_mul (by omega)] at quotient
      have product : (2 ^ 16 - 2) * (fs.size - 8) ≤ (2 ^ 16 - 2) * (2 ^ 16 - 9) :=
        Nat.mul_le_mul_left _ (by omega)
      omega
  intro c member
  have part : c.length ≤ iov.flatten.length := by
    rw [List.length_flatten]
    exact List.single_le_sum (by simp) _ (List.mem_map_of_mem member)
  omega

/-- A response meets the condition when its buffers are even and its datagrams are few. -/
def Segmentable (fs : Nat) (iov : List Bytes) : Prop := Even fs iov 0 ∧ datagramCount fs iov < 2 ^ 16

instance (fs : Nat) (iov : List Bytes) : Decidable (Segmentable fs iov) :=
  inferInstanceAs (Decidable (_ ∧ _))

theorem fixHeaders_iff (fs : FrameSize) {r : Response α} {res : List Bytes × List (List Bytes)}
    (nonempty : r.iov ≠ []) (done : loopOf fs.size r = some res) :
    Segments fs.size r (fixHeaders r.name res) ↔ Segmentable fs.size r.iov := by
  have header := fs.header
  obtain ⟨b, rest, buffers⟩ := List.exists_cons_of_ne_nil nonempty
  obtain ⟨eight, fields⟩ := r.header b (by rw [buffers]; rfl)
  have started : ∃ d tail more, res.1 = d :: tail ∧ b = d ++ more ∧ mcHdrSize ≤ d.length := by
    rw [loopOf, buffers] at done
    exact splitLoop_head header eight done
  obtain ⟨d, tail, more, first, split, long⟩ := started
  have fields' : (d.drop 2).take 4 = [0, 0, 0, 1] := by
    rw [split, List.drop_append_of_le_length (by rw [mcHdrSize] at long; omega),
      List.take_append_of_le_length (by rw [mcHdrSize] at long; rw [List.length_drop]; omega)]
      at fields
    exact fields
  obtain ⟨req, other, t, two, two', start⟩ := exists_header long fields'
  have same : res = (d :: tail, res.2) := by rw [← first]
  have bytes := fixHeaders_bytes two two' r.name tail res.2 start
  rw [← same] at bytes
  have iff_ : ∀ small : ∀ c ∈ r.iov, c.length < 2 ^ 32, Segments fs.size r (fixHeaders r.name res) ↔
      Segmentable fs.size r.iov := by
    intro small
    have frames := loopOf_frames header small nonempty done
    obtain ⟨whole, room⟩ := frames_whole header nonempty frames
    have begins : res.1.flatten = hdrBytes req other 0 1 ++ (t ++ tail.flatten) := by
      rw [first, start, List.flatten_cons, List.append_assoc]
    have exact_ := segments_iff two two' header nonempty _ res.1 res.2
      (fixHeaders_name r.name res) bytes begins whole.symm room
    rw [exact_, Segmentable, allFull_even header nonempty frames]
    constructor
    · rintro ⟨even, few⟩
      exact ⟨even, by rw [← frames_count header nonempty frames even]; exact few⟩
    · rintro ⟨even, few⟩
      exact ⟨even, by rw [← frames_count header nonempty frames even] at few; exact few⟩
  constructor
  · intro segments
    have few := segments_few two two' bytes segments
    apply (iff_ _).mp segments
    rw [loopOf] at done
    apply splitLoop_bounded (Nat.le_refl _) done
    have datagram := fs.datagram
    have product : (res.2.length + 1) * fs.size ≤ (2 ^ 16 - 1) * (2 ^ 16 - 1) :=
      Nat.mul_le_mul (by omega) (by omega)
    rw [framesFrom, if_neg (by rw [mcHdrSize] at header ⊢; omega), List.length_cons]
    omega
  · intro regular
    exact (iff_ (small_of_count regular.2)).mpr regular

/-- A response whose loop needs no later datagram is sent as it is. -/
theorem wholeFrames_segments (fs : FrameSize) {r : Response α}
    {res : List Bytes × List (List Bytes)} (nonempty : r.iov ≠ [])
    (done : loopOf fs.size r = some res) (single : res.2 = []) :
    Segments fs.size r (wholeFrames r) ∧ Segmentable fs.size r.iov := by
  have header := fs.header
  have small : ∀ c ∈ r.iov, c.length < 2 ^ 32 := by
    have loop := done
    rw [loopOf] at loop
    apply splitLoop_bounded (Nat.le_refl _) loop
    have datagram := fs.datagram
    rw [framesFrom, if_neg (by rw [mcHdrSize] at header ⊢; omega), single, List.length_singleton]
    omega
  have frames := loopOf_frames header small nonempty done
  rw [single] at frames
  obtain ⟨whole, room⟩ := frames_whole header nonempty frames
  have even : Even fs.size r.iov 0 := (allFull_even header nonempty frames).mp trivial
  have count := frames_count header nonempty frames even
  obtain ⟨b, rest, buffers⟩ := List.exists_cons_of_ne_nil nonempty
  obtain ⟨eight, fields⟩ := r.header b (by rw [buffers]; rfl)
  obtain ⟨req, other, t, two, two', start⟩ := exists_header eight fields
  have start' : r.iov.flatten = hdrBytes req other 0 1 ++ (t ++ rest.flatten) := by
    rw [buffers, List.flatten_cons, start, List.append_assoc]
  have room' : NoneOver fs.size fs.size [r.iov] := by
    refine ⟨?_, trivial⟩
    have here := room.1
    rw [bytesOf] at here ⊢
    rw [← whole]
    simpa using here
  have few : [res.1].length < 2 ^ 16 := by
    rw [List.length_singleton]
    decide
  rw [count] at few
  refine ⟨?_, even, few⟩
  rw [wholeFrames, if_neg nonempty]
  have exact_ := segments_iff two two' header nonempty [⟨r.name, r.iov⟩] r.iov [] (by simp)
    (by simp [Mmsghdr.bytes, datagramBytes, start']) start' (by simp) room'
  exact exact_.mpr ⟨trivial, by decide⟩

end Response

/-- A map succeeds with the results of its steps. -/
theorem mapM_eq_some {β γ : Type} {f : β → Option γ} {xs : List β} {ys : List γ} :
    xs.mapM f = some ys ↔ List.Forall₂ (fun x y => f x = some y) xs ys := by
  induction xs generalizing ys with
  | nil =>
      cases ys <;> simp
  | cons x xs ih =>
      cases ys with
      | nil =>
          rw [List.mapM_cons]
          cases f x <;> cases xs.mapM f <;> simp
      | cons y ys =>
          rw [List.forall₂_cons, ← ih, List.mapM_cons]
          cases f x <;> cases xs.mapM f <;> simp

section Batch

variable {fs : Nat}

/-- The entries of the scatter list of a response, or none when it is empty. -/
def framesOf (fs : Nat) (r : Response α) : Option (List (List Bytes)) :=
  if r.iov = [] then some [] else (loopOf fs r).map fun res => res.1 :: res.2

/-- The first pass succeeds with the counts of the loops. -/
theorem countFrames_eq (rs : List (Response α)) (c : FrameCount) :
    countFrames fs rs c = (rs.mapM (framesOf fs)).map fun parts =>
      ⟨c.outNmsgs + (parts.map List.length).sum,
        c.iovCnt + (parts.map fun gs => (gs.map List.length).sum + (gs.length - 1)).sum,
        c.needSplit || parts.any fun gs => 1 < gs.length⟩ := by
  induction rs generalizing c with
  | nil => simp [countFrames]
  | cons r rs ih =>
      rw [countFrames, List.mapM_cons, framesOf]
      by_cases empty : r.iov = []
      · rw [if_pos empty, if_pos empty, ih]
        cases rs.mapM (framesOf fs) with
        | none => rfl
        | some parts => simp
      · rw [if_neg empty, if_neg empty, countLoop_eq, loopOf]
        cases splitLoop fs (steps r.iov) r.iov 0 0 fs with
        | none => rfl
        | some res =>
            simp only [Option.map_some, Option.bind_some, ih, Option.bind_eq_bind, Option.pure_def]
            cases rs.mapM (framesOf fs) with
            | none => rfl
            | some parts =>
                have counted : (List.map (fun g => g.length + 1) res.2).sum =
                    (res.2.map List.length).sum + res.2.length := by
                  rw [List.sum_map_add]
                  simp
                simp only [Option.map_some, Option.bind_some, entryCount, counted, List.map_cons,
                  List.sum_cons, List.length_cons, List.any_cons, Option.some.injEq,
                  FrameCount.mk.injEq]
                refine ⟨by omega, by omega, ?_⟩
                cases res.2 <;> simp [Bool.or_assoc]

/-- A map succeeds with related results exactly when each step does. -/
theorem mapM_forall {β γ : Type} (f : β → Option γ) (R : β → γ → Prop) (xs : List β) :
    (∃ ys, xs.mapM f = some ys ∧ List.Forall₂ R xs ys) ↔ ∀ x ∈ xs, ∃ y, f x = some y ∧ R x y := by
  simp only [mapM_eq_some]
  induction xs with
  | nil => exact ⟨fun _ => by simp, fun _ => ⟨[], .nil, .nil⟩⟩
  | cons x xs ih =>
      rw [List.forall_mem_cons, ← ih]
      constructor
      · rintro ⟨ys, first, second⟩
        cases first with
        | cons here there =>
            cases second with
            | cons here' there' => exact ⟨⟨_, here, here'⟩, _, there, there'⟩
      · rintro ⟨⟨y, here, here'⟩, ys, there, there'⟩
        exact ⟨y :: ys, .cons here there, .cons here' there'⟩

/-- The loop over a response with short buffers has a result. -/
theorem loopOf_total (fs : FrameSize) {r : Response α} (few : datagramCount fs.size r.iov < 2 ^ 16) :
    ∃ res, loopOf fs.size r = some res := by
  have header := fs.header
  apply splitLoop_total header (small_of_count few)
  · exact Nat.lt_of_le_of_lt (Nat.zero_le _) header
  · intro b _
    exact Nat.zero_le _
  · rw [steps, Nat.sub_zero]

theorem segments_empty {r : Response α} (empty : r.iov = []) : Segments fs r [] := by
  apply Segments.mk <;> simp [empty]

theorem segmentable_empty (fs : FrameSize) {r : Response α} (empty : r.iov = []) :
    Segmentable fs.size r.iov := by
  have header := fs.header
  rw [empty]
  refine ⟨trivial, ?_⟩
  simp [datagramCount, frameOf, lastPlace, Nat.lt_of_le_of_lt (Nat.zero_le _) header]

/-- A response is split into a segmentation exactly when it is segmentable. -/
theorem splitFrames_iff (fs : FrameSize) (r : Response α) :
    (∃ ds, splitFrames fs.size r = some ds ∧ Segments fs.size r ds) ↔
      Segmentable fs.size r.iov := by
  by_cases empty : r.iov = []
  · rw [splitFrames, if_pos empty]
    exact ⟨fun _ => segmentable_empty fs empty, fun _ => ⟨[], rfl, segments_empty empty⟩⟩
  · rw [splitFrames, if_neg empty]
    constructor
    · rintro ⟨ds, done, segments⟩
      obtain ⟨res, loop, same⟩ := Option.map_eq_some_iff.mp done
      rw [← same] at segments
      exact (fixHeaders_iff fs empty loop).mp segments
    · intro segmentable
      obtain ⟨res, loop⟩ := loopOf_total fs segmentable.2
      refine ⟨fixHeaders r.name res, ?_, (fixHeaders_iff fs empty loop).mpr segmentable⟩
      rw [loopOf] at loop
      rw [loop, Option.map_some]

theorem framesOf_total (fs : FrameSize) {r : Response α} (segmentable : Segmentable fs.size r.iov) :
    ∃ gs, framesOf fs.size r = some gs := by
  rw [framesOf]
  split
  · exact ⟨[], rfl⟩
  · obtain ⟨res, loop⟩ := loopOf_total fs segmentable.2
    exact ⟨_, by rw [loop, Option.map_some]⟩

/-- The headers add one entry to each later datagram. -/
theorem fixHeaders_counts (name : α) {g : List Bytes} (some : g ≠ []) (gs : List (List Bytes)) :
    (fixHeaders name (g, gs)).length = gs.length + 1 ∧
      ((fixHeaders name (g, gs)).map fun d => d.iov.length).sum =
        ((g :: gs).map List.length).sum + gs.length := by
  rw [fixHeaders]
  have later : (gs.map fun entries => entries.length + 1).sum =
      (gs.map List.length).sum + gs.length := by
    rw [List.sum_map_add]
    simp
  have positive := List.length_pos_of_ne_nil some
  split
  · rename_i single
    rw [entryCount, later] at single
    dsimp only at single
    have none : gs = [] := List.length_eq_zero_iff.mp (by omega)
    subst none
    simp
  · constructor
    · simp
    · have entries : ∀ h : Bytes, (gs.mapIdx fun x entries =>
          (⟨name, setSeqno h (x + 1) :: entries⟩ : Mmsghdr α)).map (fun d => d.iov.length) =
            gs.map fun entries => entries.length + 1 := by
        intro h
        apply List.ext_getElem
        · simp
        · intro i _ _
          simp
      rw [List.map_cons, List.sum_cons, entries, later]
      simp only [List.length_cons, List.length_tail, List.map_cons, List.sum_cons]
      omega

/-- The second pass fills the counts of the first one. -/
theorem splitFrames_counts {fs : Nat} (header : mcHdrSize < fs) {rs : List (Response α)}
    {parts : List (List (Mmsghdr α))} {counted : List (List (List Bytes))}
    (split : List.Forall₂ (fun r ds => splitFrames fs r = some ds) rs parts)
    (loops : List.Forall₂ (fun r gs => framesOf fs r = some gs) rs counted) :
    parts.map List.length = counted.map List.length ∧
      (parts.map fun ds => (ds.map fun d => d.iov.length).sum) =
        counted.map fun gs => (gs.map List.length).sum + (gs.length - 1) := by
  induction split generalizing counted with
  | nil =>
      cases loops
      exact ⟨rfl, rfl⟩
  | @cons r ds rs parts here there ih =>
      cases loops with
      | @cons _ gs _ counted loop loops =>
          obtain ⟨lengths, entries⟩ := ih loops
          have first : ds.length = gs.length ∧ (ds.map fun d => d.iov.length).sum =
              (gs.map List.length).sum + (gs.length - 1) := by
            rw [splitFrames] at here
            rw [framesOf] at loop
            split at here
            · rename_i empty
              rw [if_pos empty] at loop
              injection here with here
              injection loop with loop
              rw [← here, ← loop]
              exact ⟨rfl, rfl⟩
            · rename_i nonempty
              rw [if_neg nonempty] at loop
              obtain ⟨res, done, same⟩ := Option.map_eq_some_iff.mp loop
              rw [loopOf] at done
              rw [done, Option.map_some] at here
              injection here with here
              obtain ⟨b, rest, buffers⟩ := List.exists_cons_of_ne_nil nonempty
              obtain ⟨eight, _⟩ := r.header b (by rw [buffers]; rfl)
              rw [buffers] at done
              obtain ⟨d, tail, _, begins, _⟩ := splitLoop_head header eight done
              have some : res.1 ≠ [] := by simp [begins]
              obtain ⟨count, sum⟩ := fixHeaders_counts r.name some res.2
              rw [← here, ← same]
              exact ⟨count, sum⟩
          simp only [List.map_cons, first, lengths, entries, and_self]

/-- Without a split every response is its own datagram. -/
theorem wholeFrames_all (fs : FrameSize) {rs : List (Response α)}
    {counted : List (List (List Bytes))}
    (loops : List.Forall₂ (fun r gs => framesOf fs.size r = some gs) rs counted)
    (single : ∀ gs ∈ counted, gs.length ≤ 1) :
    (∀ r ∈ rs, Segments fs.size r (wholeFrames r) ∧ Segmentable fs.size r.iov) ∧
      (rs.map wholeFrames).map List.length = counted.map List.length := by
  induction loops with
  | nil => exact ⟨by simp, rfl⟩
  | @cons r gs rs counted here there ih =>
      obtain ⟨all, lengths⟩ := ih fun gs member => single gs (by simp [member])
      have first : (Segments fs.size r (wholeFrames r) ∧ Segmentable fs.size r.iov) ∧
          (wholeFrames r).length = gs.length := by
        rw [framesOf] at here
        split at here
        · rename_i empty
          injection here with here
          rw [wholeFrames, if_pos empty, ← here]
          exact ⟨⟨segments_empty empty, segmentable_empty fs empty⟩, rfl⟩
        · rename_i nonempty
          obtain ⟨res, done, same⟩ := Option.map_eq_some_iff.mp here
          have short := single gs (by simp)
          rw [← same, List.length_cons] at short
          have none : res.2 = [] := List.length_eq_zero_iff.mp (by omega)
          refine ⟨wholeFrames_segments fs nonempty done none, ?_⟩
          rw [wholeFrames, if_neg nonempty, ← same, none]
          rfl
      constructor
      · rw [List.forall_mem_cons]
        exact ⟨first.1, all⟩
      · rw [List.map_cons, List.map_cons, List.map_cons, first.2, lengths]

/-- The datagrams of a batch are segmentations of its responses. -/
def Segmented (fs : FrameSize) (rs : List (Response α))
    (result : Option (FrameCount × List (List (Mmsghdr α)))) : Prop :=
  ∃ c parts, result = some (c, parts) ∧ List.Forall₂ (Segments fs.size) rs parts

/-- The datagrams and the entries that the second pass writes are as many as the first counted;
without a split the buffers themselves are the entries. -/
def Filled (result : Option (FrameCount × List (List (Mmsghdr α)))) : Prop :=
  ∀ c parts, result = some (c, parts) → c.outNmsgs = (parts.map List.length).sum ∧
    (c.needSplit → c.iovCnt = (parts.map fun ds => (ds.map fun d => d.iov.length).sum).sum)

/-- The counts of the first pass when the loops make the frames `counted`. -/
def countOf (counted : List (List (List Bytes))) : FrameCount :=
  ⟨(counted.map List.length).sum,
    (counted.map fun gs => (gs.map List.length).sum + (gs.length - 1)).sum,
    counted.any fun gs => 1 < gs.length⟩

theorem constructFrames_eq (fs : FrameSize) (rs : List (Response α)) :
    constructFrames fs rs = (rs.mapM (framesOf fs.size)).bind fun counted =>
      if (countOf counted).needSplit then
        (rs.mapM (splitFrames fs.size)).map (countOf counted, ·)
      else some (countOf counted, rs.map wholeFrames) := by
  rw [constructFrames, countFrames_eq]
  cases rs.mapM (framesOf fs.size) with
  | none => rfl
  | some counted => simp [countOf]

/-- The responses are segmented exactly when each of them is segmentable. -/
theorem segmented_iff (fs : FrameSize) (rs : List (Response α)) :
    Segmented fs rs (constructFrames fs rs) ↔ ∀ r ∈ rs, Segmentable fs.size r.iov := by
  rw [constructFrames_eq]
  cases loops : rs.mapM (framesOf fs.size) with
  | none =>
      constructor
      · rintro ⟨c, parts, result, _⟩
        cases result
      · intro all
        have total : ∀ r ∈ rs, ∃ gs, framesOf fs.size r = some gs ∧ True := fun r member =>
          (framesOf_total fs (all r member)).imp fun gs done => ⟨done, trivial⟩
        obtain ⟨counted, done, _⟩ := (mapM_forall (framesOf fs.size) (fun _ _ => True) rs).mpr total
        rw [loops] at done
        cases done
  | some counted =>
      rw [Option.bind_some]
      by_cases more : (countOf counted).needSplit = true
      · have all := mapM_forall (splitFrames fs.size) (Segments fs.size) rs
        simp only [splitFrames_iff] at all
        rw [if_pos more, ← all]
        constructor
        · rintro ⟨c, parts, result, segments⟩
          obtain ⟨parts', done, same⟩ := Option.map_eq_some_iff.mp result
          injection same with _ same
          exact ⟨parts, same ▸ done, segments⟩
        · rintro ⟨parts, done, segments⟩
          exact ⟨_, parts, by rw [done, Option.map_some], segments⟩
      · have single : ∀ gs ∈ counted, gs.length ≤ 1 := by
          intro gs member
          by_contra long
          exact more (List.any_eq_true.mpr ⟨gs, member, decide_eq_true (by omega)⟩)
        obtain ⟨all, _⟩ := wholeFrames_all fs (mapM_eq_some.mp loops) single
        rw [if_neg more]
        constructor
        · intro _ r member
          exact (all r member).2
        · intro _
          refine ⟨_, _, rfl, ?_⟩
          rw [List.forall₂_map_right_iff, List.forall₂_same]
          exact fun r member => (all r member).1

theorem constructFrames_filled (fs : FrameSize) (rs : List (Response α)) :
    Filled (constructFrames fs rs) := by
  intro c parts result
  rw [constructFrames_eq] at result
  obtain ⟨counted, loops, result⟩ := Option.bind_eq_some_iff.mp result
  have each := mapM_eq_some.mp loops
  by_cases more : (countOf counted).needSplit = true
  · rw [if_pos more] at result
    obtain ⟨parts', done, same⟩ := Option.map_eq_some_iff.mp result
    injection same with same same'
    subst same same'
    obtain ⟨lengths, entries⟩ := splitFrames_counts fs.header (mapM_eq_some.mp done) each
    exact ⟨by rw [lengths, countOf], fun _ => by rw [entries, countOf]⟩
  · rw [if_neg more] at result
    injection result with same
    injection same with same same'
    subst same same'
    have single : ∀ gs ∈ counted, gs.length ≤ 1 := by
      intro gs member
      by_contra long
      exact more (List.any_eq_true.mpr ⟨gs, member, decide_eq_true (by omega)⟩)
    obtain ⟨_, lengths⟩ := wholeFrames_all fs each single
    exact ⟨by rw [lengths, countOf], fun split => absurd split more⟩

/-- The responses are segmented exactly when no empty buffer but a last one starts a later
datagram and the datagrams of a response are fewer than `2 ^ 16`, and the arrays of the second
pass are exactly filled. -/
theorem memcachedSegmentation (fs : FrameSize) (rs : List (Response α)) :
    (Segmented fs rs (constructFrames fs rs) ↔ ∀ r ∈ rs, Segmentable fs.size r.iov) ∧
      Filled (constructFrames fs rs) :=
  ⟨segmented_iff fs rs, constructFrames_filled fs rs⟩

/-- A header, data that fills the first datagram, no data and one more byte, as a client that
sends three times leaves them. -/
def emptySend : Response Unit where
  name := ()
  iov := [[0, 1, 0, 0, 0, 1, 0, 0], List.replicate 1392 120, [], [121]]
  header := by
    intro first member
    cases member
    decide

/-- The second datagram of the response has no payload, and the third one has the last byte. -/
theorem not_memcachedSegmentation_emptySend :
    ¬Segmented frameSize [emptySend] (constructFrames frameSize [emptySend]) := by
  intro segmented
  have all := (segmented_iff frameSize [emptySend]).mp segmented emptySend (by simp)
  exact absurd all (by decide +kernel)

end Batch

end Raids.Memcached
