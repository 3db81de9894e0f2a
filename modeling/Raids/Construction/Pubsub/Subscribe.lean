import Raids.Construction.Exec.Request
import Raids.Construction.Pubsub.Message

namespace Raids.Pubsub

/-- A glob pattern as a regular expression, with the length of the literal text in front. -/
structure PatternCvt where
  prefixLen : Nat
  out : Bytes
  deriving DecidableEq, Repr

/-- Where the messages of a subscription go that are not written to the stream. -/
inductive OnMsg where
  | onRedisInboxMsg
  | closure (id : Nat)
  deriving DecidableEq, Repr

/-- An entry of the table of subjects is a subscription, or a command that waits for a key. -/
inductive RedisSubState where
  | routeData
  | continueData
  deriving DecidableEq, Repr

/-- An entry of the table of subjects. -/
structure RedisSubRoute where
  hash : Nat
  value : Bytes
  state : RedisSubState
  callback : Option OnMsg := none
  ibxId : Nat := 0
  deriving DecidableEq, Repr

def RedisSubRoute.isRoute (rt : RedisSubRoute) : Bool := rt.state = .routeData

def RedisSubRoute.isContinue (rt : RedisSubRoute) : Bool := rt.state = .continueData

/-- The table of subjects, with its counts of subscriptions and of waiting commands. -/
structure RedisSubMap where
  tab : List RedisSubRoute := []
  subCount : Nat := 0
  contCount : Nat := 0
  nextInboxId : Nat := 0
  deriving DecidableEq, Repr

def RedisSubMap.find (m : RedisSubMap) (h : Nat) (sub : Bytes) : Option RedisSubRoute :=
  m.tab.find? fun rt => rt.hash = h ∧ rt.value = sub

/-- The number of entries with a hash. -/
def RedisSubMap.hashCount (m : RedisSubMap) (h : Nat) : Nat := m.tab.countP (·.hash = h)

/-- An entry is removed. -/
def RedisSubMap.remove (m : RedisSubMap) (h : Nat) (sub : Bytes) : RedisSubMap :=
  { m with tab := m.tab.eraseP fun rt => rt.hash = h ∧ rt.value = sub }

/-- An entry of one kind is removed, and whether others have its hash. -/
def RedisSubMap.rem (m : RedisSubMap) (h : Nat) (sub : Bytes) (kind : RedisSubState) :
    Option (RedisSubMap × Bool) :=
  match m.find h sub with
  | none => none
  | some rt => if rt.state = kind then some (m.remove h sub, 1 < m.hashCount h) else none

/-- A pattern. It has no expression where its prefix is enough. -/
structure RedisWildMatch where
  value : Bytes
  re : Option Bytes
  callback : Option OnMsg
  deriving DecidableEq, Repr

/-- The patterns with one literal prefix. -/
structure RedisPatternRoute where
  hash : Nat
  value : Bytes
  count : Nat := 0
  list : List RedisWildMatch := []
  deriving DecidableEq, Repr

structure RedisPatternMap where
  tab : List RedisPatternRoute := []
  deriving DecidableEq, Repr

/-- The count is the one of the prefixes. -/
def RedisPatternMap.subCount (m : RedisPatternMap) : Nat := m.tab.length

def RedisPatternMap.find (m : RedisPatternMap) (h : Nat) (sub : Bytes) :
    Option RedisPatternRoute :=
  m.tab.find? fun rt => rt.hash = h ∧ rt.value = sub

def RedisPatternMap.hashCount (m : RedisPatternMap) (h : Nat) : Nat := m.tab.countP (·.hash = h)

def RedisPatternMap.remove (m : RedisPatternMap) (h : Nat) (sub : Bytes) : RedisPatternMap :=
  { m with tab := m.tab.eraseP fun rt => rt.hash = h ∧ rt.value = sub }

/-- An entry changes in its place. -/
def RedisPatternMap.replace (m : RedisPatternMap) (rt : RedisPatternRoute) : RedisPatternMap :=
  { tab := m.tab.map fun other =>
      if other.hash = rt.hash ∧ other.value = rt.value then rt else other }

/-- What a connection uses of the rest: its namespace, the hash of the routes, the conversion of
patterns, the regular expressions, the orders in which the tables are walked, and the conversion of
messages. -/
structure RouteEnv where
  pref : Bytes
  kvCrcC : Bytes → Nat → Nat
  prefixSeed : Nat → Nat
  convertGlob : Bytes → Option PatternCvt
  pcre2Compile : Bytes → Bool
  pcre2Match : Bytes → Bytes → Bool
  subWalk : List RedisSubRoute → List RedisSubRoute
  patWalk : List RedisPatternRoute → List RedisPatternRoute
  base64 : Base64
  maxSessionLen : Nat
  transform : Bytes → Option Bytes

/-- What the router hears of a connection. -/
inductive Notify where
  | addSub (sub : Bytes) (inbox : Option Bytes) (h : Nat) (coll : Bool)
  | notifySub (sub : Bytes) (inbox : Option Bytes) (h : Nat)
  | delSub (sub : Bytes) (h : Nat) (coll : Bool)
  | addPat (cvt : PatternCvt) (sub : Bytes) (h : Nat) (coll : Bool)
  | notifyPat (cvt : PatternCvt) (sub : Bytes) (h : Nat)
  | delPat (cvt : PatternCvt) (sub : Bytes) (h : Nat) (coll : Bool)
  deriving DecidableEq, Repr

/-- The subscriptions of a connection, with what the router has heard of it. -/
structure Subscriber where
  subTab : RedisSubMap := {}
  patTab : RedisPatternMap := {}
  session : Bytes := []
  msgRouteCnt : Nat := 0
  heard : List Notify := []
  deriving DecidableEq, Repr

def Subscriber.notify (exec : Subscriber) (n : Notify) : Subscriber :=
  { exec with heard := exec.heard ++ [n] }

section Commands

variable (env : RouteEnv)

/-- The hash of a literal prefix depends on its length. -/
def RouteEnv.prefixHash (sub : Bytes) (cvt : PatternCvt) : Nat :=
  env.kvCrcC (sub.take cvt.prefixLen) (env.prefixSeed cvt.prefixLen)

/-- The inbox where replies to a subscription go, in a session. -/
def Subscriber.inbox (exec : Subscriber) (h ibxId : Nat) : Option Bytes :=
  if exec.session.isEmpty then none
  else some (inboxSubject env.base64 env.pref exec.session h ibxId)

def doSubscribeCb (cb : Option OnMsg) (exec : Subscriber) (sub : Bytes) :
    ExecStatus × Subscriber :=
  let sub := env.pref ++ sub
  let h := env.kvCrcC sub 0
  match exec.subTab.find h sub with
  | some rt => (.errKeyExists, exec.notify (.notifySub sub (exec.inbox env h rt.ibxId) h))
  | none =>
      let coll : Bool := 0 < exec.subTab.hashCount h
      let ibxId := exec.subTab.nextInboxId + 1
      let rt : RedisSubRoute :=
        { hash := h, value := sub, state := .routeData, callback := cb, ibxId := ibxId }
      let subTab :=
        { exec.subTab with
          tab := rt :: exec.subTab.tab
          subCount := exec.subTab.subCount + 1
          nextInboxId := ibxId }
      let exec := { exec with subTab := subTab, msgRouteCnt := exec.msgRouteCnt + 1 }
      (.execOk, exec.notify (.addSub sub (exec.inbox env h ibxId) h coll))

def doUnsubscribe (exec : Subscriber) (sub : Bytes) : ExecStatus × Subscriber :=
  let sub := env.pref ++ sub
  let h := env.kvCrcC sub 0
  match exec.subTab.rem h sub .routeData with
  | none => (.errKeyDoesntExist, exec)
  | some (subTab, coll) =>
      let subTab := { subTab with subCount := subTab.subCount - 1 }
      let exec := { exec with subTab := subTab, msgRouteCnt := exec.msgRouteCnt + 1 }
      (.execOk, exec.notify (.delSub sub h coll))

/-- The prefix is enough where only the rest of a subject follows, otherwise the expression has to
compile. -/
def RouteEnv.createRe (sub : Bytes) (cvt : PatternCvt) : Option (Option Bytes) :=
  if cvt.prefixLen + 1 = sub.length ∧ sub[cvt.prefixLen]? = some 62 then some none
  else if env.pcre2Compile cvt.out then some (some cvt.out)
  else none

/-- Only the first pattern of a prefix is created. Where that fails, the entry is looked for under
the whole pattern. -/
def doPsubscribeCb (cb : Option OnMsg) (exec : Subscriber) (sub : Bytes) :
    ExecStatus × Subscriber :=
  let sub := env.pref ++ sub
  match env.convertGlob sub with
  | none => (.errKeyExists, exec)
  | some cvt =>
      let h := env.prefixHash sub cvt
      match exec.patTab.find h (sub.take cvt.prefixLen) with
      | some rt =>
          if rt.list.any (·.value = sub) then (.errKeyExists, exec.notify (.notifyPat cvt sub h))
          else (.errKeyExists, exec)
      | none =>
          let coll : Bool := 0 < exec.patTab.hashCount h
          let rt : RedisPatternRoute := { hash := h, value := sub.take cvt.prefixLen }
          match env.createRe sub cvt with
          | some re =>
              let m : RedisWildMatch := { value := sub, re := re, callback := cb }
              let rt := { rt with list := m :: rt.list, count := rt.count + 1 }
              let patTab : RedisPatternMap := { tab := rt :: exec.patTab.tab }
              let exec := { exec with patTab := patTab, msgRouteCnt := exec.msgRouteCnt + 1 }
              (.execOk, exec.notify (.addPat cvt sub h coll))
          | none =>
              let patTab : RedisPatternMap := { tab := rt :: exec.patTab.tab }
              (.errKeyExists, { exec with patTab := patTab.remove h sub })

def doPunsubscribe (exec : Subscriber) (sub : Bytes) : ExecStatus × Subscriber :=
  let sub := env.pref ++ sub
  match env.convertGlob sub with
  | none => (.errKeyDoesntExist, exec)
  | some cvt =>
      let h := env.prefixHash sub cvt
      match exec.patTab.find h (sub.take cvt.prefixLen) with
      | none => (.errKeyDoesntExist, exec)
      | some rt =>
          if rt.list.any (·.value = sub) then
            let rest :=
              { rt with list := rt.list.eraseP (·.value = sub), count := rt.count - 1 }
            let coll : Bool := 1 < exec.patTab.hashCount h ∨ 0 < rest.count
            let patTab :=
              if rest.count = 0 then exec.patTab.remove h rt.value
              else exec.patTab.replace rest
            let exec := { exec with patTab := patTab, msgRouteCnt := exec.msgRouteCnt + 1 }
            (.execOk, exec.notify (.delPat cvt sub h coll))
          else (.errKeyDoesntExist, exec)

/-- The four commands of subscriptions. -/
inductive SubKind where
  | subscribe
  | unsubscribe
  | psubscribe
  | punsubscribe
  deriving DecidableEq, Repr

namespace SubKind

def name : SubKind → Bytes
  | subscribe => text "subscribe"
  | unsubscribe => text "unsubscribe"
  | psubscribe => text "psubscribe"
  | punsubscribe => text "punsubscribe"

def hdr : SubKind → Bytes
  | subscribe => text "*3\r\n$9\r\nsubscribe\r\n"
  | unsubscribe => text "*3\r\n$11\r\nunsubscribe\r\n"
  | psubscribe => text "*3\r\n$10\r\npsubscribe\r\n"
  | punsubscribe => text "*3\r\n$12\r\npunsubscribe\r\n"

/-- What a command does with one subject. -/
def one : SubKind → Subscriber → Bytes → ExecStatus × Subscriber
  | subscribe => doSubscribeCb env none
  | unsubscribe => doUnsubscribe env
  | psubscribe => doPsubscribeCb env none
  | punsubscribe => doPunsubscribe env

/-- The count of the subscriptions after a subject was taken. -/
def count (kind : SubKind) (cnt : Nat) : Nat :=
  match kind with
  | subscribe | psubscribe => cnt + 1
  | unsubscribe | punsubscribe => cnt - 1

/-- The walk of the subjects stops at the first subscription, the walk of the patterns at the first
one that is not the one of the inbox. -/
def next (kind : SubKind) (exec : Subscriber) : Option Bytes :=
  match kind with
  | unsubscribe =>
      ((env.subWalk exec.subTab.tab).find? (!·.isContinue)).map (·.value.drop env.pref.length)
  | punsubscribe =>
      ((env.patWalk exec.patTab.tab).findSome? fun rt =>
        rt.list.find? (·.callback ≠ some .onRedisInboxMsg)).map (·.value.drop env.pref.length)
  | _ => none

end SubKind

/-- The reply to one subject holds the count. -/
def subReply (kind : SubKind) (sub : Bytes) (cval : Nat) : Bytes :=
  kind.hdr ++ [StringType.char .bulkString] ++ uint64ToString sub.length ++ crlf ++ sub ++ crlf ++
    [integerChar] ++ uint64ToString cval ++ crlf

/-- The command while it runs: the count, the replies of the segment, and the bytes written. -/
structure DoSub where
  exec : Subscriber
  cnt : Nat
  replies : List (Bytes × Nat) := []
  out : Bytes := []

/-- One subject is taken. -/
def DoSub.turn (kind : SubKind) (st : DoSub) (sub : Bytes) : DoSub :=
  let (status, exec) := kind.one env st.exec sub
  let cnt := if status = .execOk then kind.count st.cnt else st.cnt
  { st with exec := exec, cnt := cnt, replies := st.replies ++ [(sub, cnt)] }

/-- The replies of a segment are written together. -/
def DoSub.flush (kind : SubKind) (st : DoSub) : DoSub :=
  { st with
    replies := []
    out := st.out ++ st.replies.flatMap fun reply => subReply kind reply.1 reply.2 }

/-- A segment has eight subjects. -/
def DoSub.segment (kind : SubKind) (st : DoSub) : DoSub :=
  if st.replies.length = 8 then st.flush kind else st

/-- The subjects of the command are taken, or all that are left where it names none. A subject that
is no string ends the command, and the replies of its segment are not written. -/
def doSubLoop (kind : SubKind) : Nat → List (Option Bytes) → DoSub → Option (ExecStatus × DoSub)
  | 0, _, _ => none
  | _ + 1, none :: _, st => some (.errBadArgs, st)
  | fuel + 1, some sub :: args, st =>
      let st := st.turn env kind sub
      if args.isEmpty then some (.execOk, st.flush kind)
      else doSubLoop kind fuel args (st.segment kind)
  | fuel + 1, [], st =>
      match kind.next env st.exec with
      | none => some (.execOk, st.flush kind)
      | some sub => doSubLoop kind fuel [] ((st.turn env kind sub).segment kind)

/-- The most turns that a command can take. -/
def subTurns (exec : Subscriber) (args : List (Option Bytes)) : Nat :=
  args.length + exec.subTab.tab.length +
    (exec.patTab.tab.map fun rt => rt.list.length).sum + 1

/-- The subjects that a command names. -/
def subjects (msg : CommandMsg) : List (Option Bytes) :=
  (List.range' 1 (msg.argc - 1)).map fun i => msg.getArgStr i

/-- The count starts with the subscriptions and the prefixes. -/
def doSub (kind : SubKind) (exec : Subscriber) (msg : CommandMsg) :
    Option (ExecStatus × DoSub) :=
  let args := subjects msg
  let cnt := exec.subTab.subCount + exec.patTab.subCount
  doSubLoop env kind (subTurns exec args) args { exec := exec, cnt := cnt }

/-- A session has an inbox. Its pattern is subscribed like the others. -/
def setSession (exec : Subscriber) (sess : Bytes) : Bool × Subscriber :=
  if sess.length = 0 ∨ env.maxSessionLen ≤ sess.length then (false, { exec with session := [] })
  else
    let exec := { exec with session := sess }
    let inbox := text "_INBOX." ++ sess ++ text ".*"
    (true, (doPsubscribeCb env (some .onRedisInboxMsg) exec inbox).2)

/-- The subjects that a blocked command waits for, and whether it is in the table. -/
structure RedisContinueMsg where
  subs : List Bytes
  contTab : Bool := false
  deriving DecidableEq, Repr

/-- A command that waits takes the subjects that are not in the table. -/
def saveBlockedOne (exec : Subscriber) (cm : RedisContinueMsg) (sub : Bytes) :
    Subscriber × RedisContinueMsg :=
  let h := env.kvCrcC sub 0
  match exec.subTab.find h sub with
  | some _ => ({ exec with msgRouteCnt := exec.msgRouteCnt + 1 }, cm)
  | none =>
      let coll : Bool := 0 < exec.subTab.hashCount h
      let rt : RedisSubRoute := { hash := h, value := sub, state := .continueData }
      let subTab :=
        { exec.subTab with tab := rt :: exec.subTab.tab, contCount := exec.subTab.contCount + 1 }
      let exec := { exec with subTab := subTab, msgRouteCnt := exec.msgRouteCnt + 1 }
      (exec.notify (.addSub sub none h coll), { cm with contTab := true })

def saveBlockedCmd (exec : Subscriber) (subs : List Bytes) : Subscriber × RedisContinueMsg :=
  subs.foldl (fun st sub => saveBlockedOne env st.1 st.2 sub) (exec, { subs := subs })

/-- The subjects of a command leave the table, and the router hears it of all that were there. -/
def popContinueSubs (exec : Subscriber) : List Bytes → Subscriber × List Notify
  | [] => (exec, [])
  | sub :: subs =>
      let h := env.kvCrcC sub 0
      match exec.subTab.rem h sub .continueData with
      | none => popContinueSubs exec subs
      | some (subTab, coll) =>
          let subTab := { subTab with contCount := subTab.contCount - 1 }
          let (exec, heard) := popContinueSubs { exec with subTab := subTab } subs
          (exec, .delSub sub h coll :: heard)

def popContinueTab (exec : Subscriber) (cm : RedisContinueMsg) : Subscriber :=
  if cm.contTab then
    let (exec, heard) := popContinueSubs env exec cm.subs
    { exec with heard := exec.heard ++ heard, msgRouteCnt := exec.msgRouteCnt + 1 }
  else exec

/-- A route that leaves for good has a collision while another one of its hash is left. -/
def remSubs : List RedisSubRoute → List Notify
  | [] => []
  | rt :: left => .delSub rt.value rt.hash (left.any (·.hash = rt.hash)) :: remSubs left

/-- The patterns of the prefixes leave one after the other. Those that do not convert are passed
over, and stay a collision for the others. -/
def remPats (passed : List Nat) : List (Nat × RedisWildMatch) → List Notify
  | [] => []
  | (h, m) :: left =>
      match env.convertGlob m.value with
      | none => remPats (h :: passed) left
      | some cvt =>
          .delPat cvt m.value h (h ∈ passed ∨ left.any (·.1 = h)) :: remPats passed left

/-- All entries of the tables leave. -/
def remAllSub (exec : Subscriber) : Subscriber :=
  let subs := env.subWalk exec.subTab.tab
  let pats := (env.patWalk exec.patTab.tab).flatMap fun rt => rt.list.map fun m => (rt.hash, m)
  { exec with heard := exec.heard ++ remSubs subs ++ remPats env [] pats }

/-- The end of a connection empties the tables. -/
def release (exec : Subscriber) : Subscriber :=
  { remAllSub env exec with subTab := { exec.subTab with tab := [] }, patTab := {} }

/-- A publication as the router hands it over: with the hash of its subject, and the hashes that are
routed here, each with the length of the text it is the hash of. -/
structure RoutedPub extends EvPublish where
  subjHash : Nat
  hash : List (Nat × Nat)
  reply : Option Bytes := none
  fromSelf : Bool := false

/-- What a publication does: a message on the stream, a call, or a blocked command that goes on. -/
inductive Delivery where
  | message (msg : Option (Block UInt8))
  | event (closure : Nat) (subject subscription : Bytes) (reply : Option Bytes) (msg : Bytes)
  | continued (sub : Bytes)

/-- The call of a subscription has the names without the namespace. -/
def RoutedPub.event (pub : RoutedPub) (id : Nat) (subscription : Bytes) : Delivery :=
  .event id (pub.subject.drop env.pref.length) (subscription.drop env.pref.length)
    (pub.reply.map (·.drop env.pref.length)) pub.msg

/-- The entry of the subject itself. -/
def pubRoute (exec : Subscriber) (pub : RoutedPub) : List Delivery :=
  match exec.subTab.find pub.subjHash pub.subject with
  | none => []
  | some rt =>
      if rt.isRoute then
        match rt.callback with
        | none =>
            let xf := checkTransform env.transform pub.toEvPublish
            [.message (pubMessage env.pref.length pub.toEvPublish xf none)]
        | some .onRedisInboxMsg => []
        | some (.closure id) => [pub.event env id pub.subject]
      else [.continued rt.value]

/-- A reply to an inbox goes to the subject that its last token stands for. -/
def onInboxReply (exec : Subscriber) (pub : RoutedPub) : List Delivery :=
  match inboxToken env.base64 pub.subject with
  | none => []
  | some (h, ibxId) =>
      match (env.subWalk exec.subTab.tab).find? fun rt => rt.hash = h ∧ rt.ibxId = ibxId with
      | none => []
      | some rt => pubRoute env exec { pub with subject := rt.value, subjHash := h, hash := [] }

/-- A pattern matches by its expression, where it has one. -/
def RedisWildMatch.hits (m : RedisWildMatch) (subject : Bytes) : Bool :=
  m.re.all fun re => env.pcre2Match re subject

/-- The patterns of one literal text. -/
def pubPattern (exec : Subscriber) (pub : RoutedPub) (h len : Nat) : List Delivery :=
  match exec.patTab.find h (pub.subject.take len) with
  | none => []
  | some rt =>
      (rt.list.filter (·.hits env pub.subject)).flatMap fun m =>
        match m.callback with
        | none =>
            let xf := checkTransform env.transform pub.toEvPublish
            [.message (pubMessage env.pref.length pub.toEvPublish xf (some m.value))]
        | some .onRedisInboxMsg => onInboxReply env exec pub
        | some (.closure id) => [pub.event env id m.value]

/-- Each hash is the one of the subject, or of a literal text. A connection does not hear itself. -/
def doPub (exec : Subscriber) (pub : RoutedPub) : List Delivery :=
  if pub.fromSelf then []
  else pub.hash.flatMap fun e =>
    if pub.subjHash = e.1 then pubRoute env exec pub else pubPattern env exec pub e.1 e.2

/-- A connection with its blocked commands. -/
structure Connection where
  exec : Subscriber := {}
  waiting : List RedisContinueMsg := []
  deriving DecidableEq, Repr

/-- What changes the tables of a connection: a command, a session, a command that blocks, and one
that is done. -/
inductive Action where
  | command (kind : SubKind) (msg : CommandMsg)
  | session (sess : Bytes)
  | block (subs : List Bytes)
  | complete (idx : Nat)

/-- Only a command is answered. -/
def Connection.act (c : Connection) : Action → Option (ExecStatus × Bytes) × Connection
  | .command kind msg =>
      match doSub env kind c.exec msg with
      | none => (none, c)
      | some (status, st) => (some (status, st.out), { c with exec := st.exec })
  | .session sess => (some (.execOk, []), { c with exec := (setSession env c.exec sess).2 })
  | .block subs =>
      let (exec, cm) := saveBlockedCmd env c.exec subs
      (some (.execOk, []), { exec := exec, waiting := c.waiting ++ [cm] })
  | .complete idx =>
      match c.waiting[idx]? with
      | none => (some (.execOk, []), c)
      | some cm =>
          (some (.execOk, []),
            { exec := popContinueTab env c.exec cm, waiting := c.waiting.eraseIdx idx })

end Commands

end Raids.Pubsub
