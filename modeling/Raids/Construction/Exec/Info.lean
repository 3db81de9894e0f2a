import Raids.Construction.Cmd.KeyGeometry
import Raids.Construction.Msg.Pack
import Raids.Library.Block

namespace Raids

/-- The end of the text in the buffer, and the space that counts as left. -/
structure InfoBuf where
  buf : Block UInt8
  b : Nat
  sz : Nat

/-- The print is cut to the space and has a zero behind it, but its whole length is added to the
end. -/
def xnprintf (s : InfoBuf) (str : Bytes) : InfoBuf :=
  if 0 < s.sz then
    { buf := s.buf.copy s.b (str.take (s.sz - 1) ++ [0])
      b := s.b + str.length
      sz := s.sz - min str.length (s.sz - 1) }
  else s

/-- A peer that listens. -/
structure InfoPeer where
  kind : Bytes
  address : Bytes

/-- The counters of the table. -/
structure InfoHashStats where
  rd : Nat
  wr : Nat
  chains : Nat
  spins : Nat
  htLoad : Nat
  valueLoad : Nat
  entries : Nat
  moveMsgs : Nat
  drop : Nat
  hit : Nat
  miss : Nat

/-- The resources that the process has used. -/
structure InfoUsage where
  stimeSec : Nat
  stimeUsec : Nat
  utimeSec : Nat
  utimeUsec : Nat
  minflt : Nat
  majflt : Nat
  nvcsw : Nat
  nivcsw : Nat

/-- The memory of the process in units of 1024 bytes. -/
structure InfoMemory where
  vmPeak : Nat
  vmSize : Nat
  vmHwm : Nat
  vmRss : Nat
  vmPte : Nat

/-- The traffic of all peers. -/
structure InfoNet where
  bytesRecv : Nat
  bytesSent : Nat
  msgsRecv : Nat
  msgsSent : Nat
  acceptCnt : Nat

/-- What the server knows of itself, and the texts that other libraries print: a number with its
unit, the average length of a chain, and the geometry of the table, which is cut to its space. -/
structure InfoState where
  dsVer : Bytes
  gitHead : Bytes
  gnuc : Nat
  gnucMinor : Nat
  gnucPatchlevel : Nat
  pid : Int
  sysname : Bytes
  release : Bytes
  machine : Bytes
  executable : Option Bytes
  listen : List InfoPeer
  redisClients : Nat
  pubsubClients : Nat
  hashStats : Option InfoHashStats
  usage : Option InfoUsage
  memory : Option InfoMemory
  net : InfoNet
  mstring : Nat → Nat → Bytes
  chainText : Nat → Nat → Bytes
  printMapGeom : Nat → Bytes
  printMapGeom_fits : ∀ sz, 0 < sz → (printMapGeom sz).length < sz

/-- A label has a number behind it. -/
def infoNum (label : String) (n : Nat) : Bytes := text label ++ uint64ToString n ++ crlf

/-- A label has a text behind it. -/
def infoStr (label : String) (str : Bytes) : Bytes := text label ++ str ++ crlf

/-- Seconds and microseconds have a dot between them. -/
def infoTime (label : String) (sec usec : Nat) : Bytes :=
  let digits := uint64ToString usec
  text label ++ uint64ToString sec ++ [46] ++ List.replicate (6 - digits.length) 48 ++ digits ++
    crlf

/-- The address is in the column of the other values. -/
def infoListen (p : InfoPeer) : Bytes :=
  p.kind ++ text ": " ++ List.replicate (20 - (p.kind.length : Int)).natAbs 32 ++ p.address ++ crlf

def infoServer (st : InfoState) : List Bytes :=
  [infoStr "raids_version:        " st.dsVer,
    infoStr "raids_git:            " st.gitHead,
    text "gcc_version:          " ++ uint64ToString st.gnuc ++ [46] ++
      uint64ToString st.gnucMinor ++ [46] ++ uint64ToString st.gnucPatchlevel ++ crlf,
    infoStr "process_id:           " (int64ToString st.pid),
    infoStr "os:                   " (st.sysname ++ [32] ++ st.release ++ [32] ++ st.machine)] ++
  (st.executable.map (infoStr "executable:           ")).toList ++ st.listen.map infoListen

def infoClients (st : InfoState) : List Bytes :=
  [infoNum "redis_clients:        " st.redisClients,
    infoNum "pubsub_clients:       " st.pubsubClients]

def infoHashStats (st : InfoState) (hts : InfoHashStats) : List Bytes :=
  let mstring := fun n => st.mstring n 1000
  [infoStr "ht_operations:        " (mstring (hts.rd + hts.wr)),
    infoStr "ht_chains:            " (st.chainText hts.chains (hts.rd + hts.wr)),
    infoStr "ht_read:              " (mstring hts.rd),
    infoStr "ht_write:             " (mstring hts.wr),
    infoStr "ht_spins:             " (mstring hts.spins),
    infoNum "ht_map_load:          " hts.htLoad,
    infoNum "ht_value_load:        " hts.valueLoad,
    infoStr "ht_entries:           " (mstring hts.entries),
    infoStr "ht_gc:                " (mstring hts.moveMsgs),
    infoStr "ht_drop:              " (mstring hts.drop),
    infoStr "ht_hit:               " (mstring hts.hit),
    infoStr "ht_miss:              " (mstring hts.miss)]

/-- The microseconds of the total carry into its seconds once. -/
def infoCpu (usage : InfoUsage) : List Bytes :=
  let sec := usage.stimeSec + usage.utimeSec
  let usec := usage.stimeUsec + usage.utimeUsec
  let (sec, usec) := if 1000000 ≤ usec then (sec + 1, usec - 1000000) else (sec, usec)
  [infoTime "used_cpu_sys:         " usage.stimeSec usage.stimeUsec,
    infoTime "used_cpu_user:        " usage.utimeSec usage.utimeUsec,
    infoTime "used_cpu_total:       " sec usec,
    infoNum "minor_page_fault:     " usage.minflt,
    infoNum "major_page_fault:     " usage.majflt,
    infoNum "voluntary_cswitch:    " usage.nvcsw,
    infoNum "involuntary_cswitch:  " usage.nivcsw]

def infoMemory (st : InfoState) (memory : InfoMemory) : List Bytes :=
  let mstring := fun n => st.mstring (n * 1024) 1024
  [infoStr "vm_peak:              " (mstring memory.vmPeak),
    infoStr "vm_size:              " (mstring memory.vmSize),
    infoStr "vm_hwm:               " (mstring memory.vmHwm),
    infoStr "vm_rss:               " (mstring memory.vmRss),
    infoStr "vm_pte:               " (mstring memory.vmPte)]

def infoNet (st : InfoState) : List Bytes :=
  let mstring := fun n => st.mstring n 1024
  [infoStr "net_bytes_recv:       " (mstring st.net.bytesRecv),
    infoStr "net_bytes_sent:       " (mstring st.net.bytesSent),
    infoStr "net_msgs_recv:        " (mstring st.net.msgsRecv),
    infoStr "net_msgs_sent:        " (mstring st.net.msgsSent),
    infoStr "net_accept_count:     " (mstring st.net.acceptCnt)]

/-- The calls that write to the buffer. -/
inductive InfoCall where
  | xnprintf (str : Bytes)
  | printMapGeom

/-- The sections by their bits. -/
def infoBits (msg : CommandMsg) : Nat :=
  match msg.matchArg 1 [text "server", text "clients", text "memory", text "persistence",
      text "stats", text "replication", text "cpu", text "commandstats", text "cluster",
      text "keyspace"] with
  | 0 => 0xffff
  | n + 1 => if n < 10 then 1 <<< n else 0xffff

/-- The calls of the sections in their order. -/
def infoCalls (info : Nat) (st : InfoState) : List InfoCall :=
  let sect := fun (mask : Nat) (calls : List InfoCall) => if info &&& mask ≠ 0 then calls else []
  sect 1 ((infoServer st).map .xnprintf) ++
    sect 2 ((infoClients st).map .xnprintf) ++
    sect 1 [.printMapGeom] ++
    sect 16 (((st.hashStats.map (infoHashStats st)).getD []).map .xnprintf) ++
    sect 64 (((st.usage.map infoCpu).getD []).map .xnprintf) ++
    sect 4 (((st.memory.map (infoMemory st)).getD []).map .xnprintf) ++
    sect 16 ((infoNet st).map .xnprintf)

/-- The geometry ends at its zero. -/
def InfoCall.run (st : InfoState) (s : InfoBuf) : InfoCall → InfoBuf
  | .xnprintf str => Raids.xnprintf s str
  | .printMapGeom =>
      let str := st.printMapGeom s.sz
      { buf := s.buf.copy s.b (str ++ [0]), b := s.b + str.length, sz := s.sz - str.length }

def infoLen : Nat := 1024 * 8

/-- The text starts behind the room for its header. -/
def infoStart : InfoBuf := ⟨Block.alloc infoLen, 32, infoLen - 32⟩

/-- The header is written in front of the text and the line end behind it, and the bytes between
them are sent. -/
def sendInfo (s : InfoBuf) : Block UInt8 × List (Option UInt8) :=
  let n := infoLen - 32 - s.sz
  let dig := uint64Digits n
  let off := 32 - (dig + 3)
  let buf := s.buf.copy off [StringType.char .bulkString]
  let buf := buf.copy (off + 1) (uint64ToString n)
  let buf := buf.copy (off + 1 + dig) crlf
  let buf := buf.copy s.b crlf
  (buf, (List.range (n + dig + 3 + 2)).map fun k => buf.cells (off + k))

/-- The buffer behind some of the calls. -/
def infoAfter (st : InfoState) (calls : List InfoCall) : InfoBuf :=
  calls.foldl (InfoCall.run st) infoStart

def execInfo (msg : CommandMsg) (st : InfoState) : Block UInt8 × List (Option UInt8) :=
  sendInfo (infoAfter st (infoCalls (infoBits msg) st))

end Raids
