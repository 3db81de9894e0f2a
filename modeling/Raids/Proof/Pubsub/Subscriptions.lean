import Raids.Construction.Pubsub.Subscribe
import Raids.Library.Announcement
import Raids.Library.Machine
import Raids.Proof.Pubsub.Message

namespace Raids.Pubsub
open Announcement

/-- What is documented of the code outside: the literal text is a part of its pattern, and a walk
passes each entry once. -/
structure RouteEnv.Works (env : RouteEnv) : Prop where
  within : ∀ sub cvt, env.convertGlob sub = some cvt → cvt.prefixLen ≤ sub.length
  subWalk : ∀ tab, (env.subWalk tab).Perm tab
  patWalk : ∀ tab, (env.patWalk tab).Perm tab

/-- The literal text in front of a pattern. -/
def RouteEnv.literal (env : RouteEnv) (sub : Bytes) : Option Bytes :=
  (env.convertGlob sub).map fun cvt => sub.take cvt.prefixLen

/-- What a connection listens to: channels, the subjects of its blocked commands, and patterns, where
the one of its inbox is marked. -/
@[ext] structure Subscriptions where
  channels : Finset Bytes := ∅
  blocked : Finset Bytes := ∅
  patterns : Finset (Bytes × Bool) := ∅
  deriving DecidableEq

namespace Subscriptions

def count (t : Subscriptions) : Nat := t.channels.card + t.patterns.card

/-- A pattern joins where its literal text is not taken. -/
def addPattern (env : RouteEnv) (t : Subscriptions) (sub : Bytes) (inbox : Bool) : Subscriptions :=
  match env.literal sub with
  | none => t
  | some lit =>
      if ∃ p ∈ t.patterns, env.literal p.1 = some lit then t
      else { t with patterns := insert (sub, inbox) t.patterns }

/-- What a command is for, one subject after the other. -/
def one (env : RouteEnv) (kind : SubKind) (t : Subscriptions) (sub : Bytes) : Subscriptions :=
  let sub := env.pref ++ sub
  match kind with
  | .subscribe => if sub ∈ t.blocked then t else { t with channels := insert sub t.channels }
  | .unsubscribe => { t with channels := t.channels.erase sub }
  | .psubscribe => t.addPattern env sub false
  | .punsubscribe => { t with patterns := t.patterns.filter (·.1 ≠ sub) }

/-- What a command without subjects takes. -/
def left (t : Subscriptions) : SubKind → Finset Bytes
  | .unsubscribe => t.channels
  | .punsubscribe => (t.patterns.filter (·.2 = false)).image Prod.fst
  | _ => ∅

/-- The replies to subjects, each with the count that is left by it. -/
def replies (env : RouteEnv) (kind : SubKind) : Subscriptions → List Bytes →
    List (Bytes × Nat) × Subscriptions :=
  Machine.run fun t sub => ((sub, (t.one env kind sub).count), t.one env kind sub)

/-- A blocked command waits for the subjects that are no channels. -/
def wait (t : Subscriptions) (subs : List Bytes) : Subscriptions :=
  { t with blocked := t.blocked ∪ (subs.toFinset \ t.channels) }

/-- The command is in the table for the subjects that nobody had before. -/
def takes (t : Subscriptions) (subs : List Bytes) : Bool :=
  subs.any fun sub => decide (sub ∉ t.channels ∪ t.blocked)

/-- The subjects of a command that is done are given back. -/
def done (t : Subscriptions) (subs : List Bytes) : Subscriptions :=
  { t with blocked := t.blocked \ subs.toFinset }

end Subscriptions

section Tables

variable {env : RouteEnv}

/-- The table of subjects holds each once, under its hash, and counts both kinds. The inboxes of the
subscriptions have different numbers. -/
structure RedisSubMap.Sound (env : RouteEnv) (m : RedisSubMap) : Prop where
  unique : (m.tab.map (·.value)).Nodup
  hashed : ∀ rt ∈ m.tab, rt.hash = env.kvCrcC rt.value 0
  named : ∀ rt ∈ m.tab, rt.isRoute → env.pref <+: rt.value
  written : ∀ rt ∈ m.tab, rt.callback = none
  numbered : ∀ rt ∈ m.tab, rt.ibxId ≤ m.nextInboxId ∧ (rt.isRoute → 0 < rt.ibxId)
  different : ∀ rt ∈ m.tab, ∀ other ∈ m.tab, 0 < rt.ibxId → rt.ibxId = other.ibxId → rt = other
  subs : m.subCount = m.tab.countP (·.isRoute)
  conts : m.contCount = m.tab.countP (·.isContinue)

/-- The pattern of a prefix. -/
structure RedisPatternRoute.Holds (env : RouteEnv) (rt : RedisPatternRoute) (w : RedisWildMatch) :
    Prop where
  list : rt.list = [w]
  count : rt.count = 1
  named : env.pref <+: w.value
  literal : env.literal w.value = some rt.value
  created : (env.convertGlob w.value).bind (env.createRe w.value) = some w.re
  callback : w.callback = none ∨ w.callback = some .onRedisInboxMsg

/-- The table of patterns holds each literal text once, under its hash, with one pattern. -/
structure RedisPatternMap.Sound (env : RouteEnv) (m : RedisPatternMap) : Prop where
  unique : (m.tab.map (·.value)).Nodup
  hashed : ∀ rt ∈ m.tab, rt.hash = env.kvCrcC rt.value (env.prefixSeed rt.value.length)
  single : ∀ rt ∈ m.tab, ∃ w, rt.Holds env w

theorem RedisSubMap.sound_empty : RedisSubMap.Sound env {} where
  unique := List.nodup_nil
  hashed := by simp
  named := by simp
  written := by simp
  numbered := by simp
  different := by simp
  subs := rfl
  conts := rfl

theorem RedisPatternMap.sound_empty : RedisPatternMap.Sound env {} where
  unique := List.nodup_nil
  hashed := by simp
  single := by simp

theorem RedisSubMap.Sound.find_none {m : RedisSubMap} (sound : m.Sound env) (sub : Bytes) :
    m.find (env.kvCrcC sub 0) sub = none ↔ sub ∉ m.tab.map (·.value) :=
  find?_entryIs_none (f := fun sub => env.kvCrcC sub 0) sound.hashed

theorem RedisSubMap.find_some {m : RedisSubMap} {h : Nat} {sub : Bytes} {rt : RedisSubRoute}
    (found : m.find h sub = some rt) : rt ∈ m.tab ∧ rt.value = sub :=
  mem_of_find?_entryIs (f := fun _ => h) found

/-- An entry that is not there yet joins the table. -/
theorem RedisSubMap.Sound.put {m : RedisSubMap} (sound : m.Sound env) {rt : RedisSubRoute}
    (fresh : rt.value ∉ m.tab.map (·.value)) (hashed : rt.hash = env.kvCrcC rt.value 0)
    (named : rt.isRoute → env.pref <+: rt.value) (written : rt.callback = none) {inbox : Nat}
    (numbered : rt.ibxId = m.nextInboxId + 1 ∧ inbox = rt.ibxId ∨
      rt.ibxId = 0 ∧ rt.isRoute = false ∧ inbox = m.nextInboxId) :
    RedisSubMap.Sound env
      { tab := rt :: m.tab
        subCount := if rt.isRoute then m.subCount + 1 else m.subCount
        contCount := if rt.isContinue then m.contCount + 1 else m.contCount
        nextInboxId := inbox } where
  unique := List.nodup_cons.mpr ⟨fresh, sound.unique⟩
  hashed := List.forall_mem_cons.mpr ⟨hashed, sound.hashed⟩
  named := List.forall_mem_cons.mpr ⟨named, sound.named⟩
  written := List.forall_mem_cons.mpr ⟨written, sound.written⟩
  numbered := by
    refine List.forall_mem_cons.mpr ⟨?_, fun other member => ?_⟩
    · rcases numbered with ⟨new, same⟩ | ⟨none, other, same⟩
      · exact ⟨same.ge, fun _ => by omega⟩
      · exact ⟨by omega, fun route => absurd route (by simp [other])⟩
    · obtain ⟨bound, positive⟩ := sound.numbered other member
      refine ⟨?_, positive⟩
      rcases numbered with ⟨new, same⟩ | ⟨none, other, same⟩ <;> dsimp only <;> omega
  different := by
    have apart : ∀ other ∈ m.tab, rt.ibxId = other.ibxId → rt.ibxId = 0 := by
      intro other member same
      have bound := (sound.numbered other member).1
      rcases numbered with ⟨new, -⟩ | ⟨none, -⟩ <;> omega
    intro first member second inside positive same
    rcases List.mem_cons.mp member with rfl | older <;>
      rcases List.mem_cons.mp inside with rfl | old
    · rfl
    · exact absurd (apart second old same) (by omega)
    · exact absurd (apart first older same.symm) (by omega)
    · exact sound.different first older second old positive same
  subs := by
    rw [List.countP_cons, sound.subs]
    split_ifs <;> rfl
  conts := by
    rw [List.countP_cons, sound.conts]
    split_ifs <;> rfl

theorem RedisSubMap.Sound.remove_tab {m : RedisSubMap} (sound : m.Sound env) (sub : Bytes) :
    (m.remove (env.kvCrcC sub 0) sub).tab = m.tab.filter (·.value ≠ sub) :=
  eraseP_entryIs (f := fun sub => env.kvCrcC sub 0) sound.unique sound.hashed

/-- An entry leaves the table. -/
theorem RedisSubMap.Sound.leave {m : RedisSubMap} (sound : m.Sound env) {rt : RedisSubRoute}
    (member : rt ∈ m.tab) :
    RedisSubMap.Sound env
      { m with
        tab := m.tab.filter (·.value ≠ rt.value)
        subCount := if rt.isRoute then m.subCount - 1 else m.subCount
        contCount := if rt.isContinue then m.contCount - 1 else m.contCount } where
  unique := sound.unique.sublist (List.filter_sublist.map _)
  hashed := fun other inside => sound.hashed other (List.mem_of_mem_filter inside)
  named := fun other inside => sound.named other (List.mem_of_mem_filter inside)
  written := fun other inside => sound.written other (List.mem_of_mem_filter inside)
  numbered := fun other inside => sound.numbered other (List.mem_of_mem_filter inside)
  different := fun first member second inside =>
    sound.different first (List.mem_of_mem_filter member) second (List.mem_of_mem_filter inside)
  subs := by
    rw [sound.subs, (perm_entry sound.unique member).countP_eq, List.countP_cons]
    split_ifs <;> simp
  conts := by
    rw [sound.conts, (perm_entry sound.unique member).countP_eq, List.countP_cons]
    split_ifs <;> simp

theorem RedisPatternMap.Sound.find_none {m : RedisPatternMap} (sound : m.Sound env) (lit : Bytes) :
    m.find (env.kvCrcC lit (env.prefixSeed lit.length)) lit = none ↔ lit ∉ m.tab.map (·.value) :=
  find?_entryIs_none (f := fun lit => env.kvCrcC lit (env.prefixSeed lit.length)) sound.hashed

theorem RedisPatternMap.find_some {m : RedisPatternMap} {h : Nat} {lit : Bytes}
    {rt : RedisPatternRoute} (found : m.find h lit = some rt) : rt ∈ m.tab ∧ rt.value = lit :=
  mem_of_find?_entryIs (f := fun _ => h) found

theorem RedisPatternMap.Sound.put {m : RedisPatternMap} (sound : m.Sound env)
    {rt : RedisPatternRoute} {w : RedisWildMatch} (fresh : rt.value ∉ m.tab.map (·.value))
    (hashed : rt.hash = env.kvCrcC rt.value (env.prefixSeed rt.value.length))
    (holds : rt.Holds env w) : RedisPatternMap.Sound env { tab := rt :: m.tab } where
  unique := List.nodup_cons.mpr ⟨fresh, sound.unique⟩
  hashed := List.forall_mem_cons.mpr ⟨hashed, sound.hashed⟩
  single := List.forall_mem_cons.mpr ⟨⟨w, holds⟩, sound.single⟩

theorem RedisPatternMap.Sound.remove_tab {m : RedisPatternMap} (sound : m.Sound env) (lit : Bytes) :
    (m.remove (env.kvCrcC lit (env.prefixSeed lit.length)) lit).tab =
      m.tab.filter (·.value ≠ lit) :=
  eraseP_entryIs (f := fun lit => env.kvCrcC lit (env.prefixSeed lit.length)) sound.unique
    sound.hashed

theorem RedisPatternMap.Sound.leave {m : RedisPatternMap} (sound : m.Sound env) (lit : Bytes) :
    RedisPatternMap.Sound env { tab := m.tab.filter (·.value ≠ lit) } where
  unique := sound.unique.sublist (List.filter_sublist.map _)
  hashed := fun other inside => sound.hashed other (List.mem_of_mem_filter inside)
  single := fun other inside => sound.single other (List.mem_of_mem_filter inside)

end Tables

/-- What the router hears of subjects, and of patterns. -/
def Notify.ofSub : Notify → Option (Notice Nat)
  | .addSub _ _ h coll => some (.came h coll)
  | .delSub _ h coll => some (.left h coll)
  | _ => none

def Notify.ofPat : Notify → Option (Notice Nat)
  | .addPat _ _ h coll => some (.came h coll)
  | .delPat _ _ h coll => some (.left h coll)
  | _ => none

/-- The tables are sound, and the router heard the truth about them. -/
structure Subscriber.Sound (env : RouteEnv) (exec : Subscriber) : Prop where
  subTab : exec.subTab.Sound env
  patTab : exec.patTab.Sound env
  subHeard : TellsAll 0 (exec.heard.filterMap Notify.ofSub) ↑(exec.subTab.tab.map (·.hash))
  patHeard : TellsAll 0 (exec.heard.filterMap Notify.ofPat) ↑(exec.patTab.tab.map (·.hash))

/-- The mark of the pattern of an inbox. -/
def RedisWildMatch.mark (w : RedisWildMatch) : Bytes × Bool :=
  (w.value, w.callback = some .onRedisInboxMsg)

/-- What the tables of a connection stand for. -/
def Subscriber.subscriptions (exec : Subscriber) : Subscriptions where
  channels := ((exec.subTab.tab.filter (·.isRoute)).map (·.value)).toFinset
  blocked := ((exec.subTab.tab.filter (·.isContinue)).map (·.value)).toFinset
  patterns := (exec.patTab.tab.flatMap fun rt => rt.list.map (·.mark)).toFinset

/-- The count that a command starts with. -/
def Subscriber.total (exec : Subscriber) : Nat := exec.subTab.subCount + exec.patTab.subCount

section Members

variable {exec : Subscriber} {sub : Bytes} {env : RouteEnv}

theorem mem_channels :
    sub ∈ exec.subscriptions.channels ↔ ∃ rt ∈ exec.subTab.tab, rt.isRoute ∧ rt.value = sub := by
  simp [Subscriber.subscriptions, and_assoc]

theorem mem_blocked :
    sub ∈ exec.subscriptions.blocked ↔ ∃ rt ∈ exec.subTab.tab, rt.isContinue ∧ rt.value = sub := by
  simp [Subscriber.subscriptions, and_assoc]

theorem mem_patterns {p : Bytes × Bool} :
    p ∈ exec.subscriptions.patterns ↔
      ∃ rt ∈ exec.patTab.tab, ∃ w ∈ rt.list, RedisWildMatch.mark w = p := by
  simp [Subscriber.subscriptions]

theorem RedisSubRoute.isContinue_eq (rt : RedisSubRoute) : rt.isContinue = !rt.isRoute := by
  obtain ⟨_, _, state, _, _⟩ := rt
  cases state <;> rfl

/-- An entry of the table is a channel or a subject of a blocked command. -/
theorem mem_values : sub ∈ exec.subTab.tab.map (·.value) ↔
    sub ∈ exec.subscriptions.channels ∨ sub ∈ exec.subscriptions.blocked := by
  rw [mem_channels, mem_blocked, List.mem_map]
  constructor
  · rintro ⟨rt, member, rfl⟩
    by_cases route : rt.isRoute
    · exact Or.inl ⟨rt, member, route, rfl⟩
    · exact Or.inr ⟨rt, member, by simp [rt.isContinue_eq, route], rfl⟩
  · rintro (⟨rt, member, -, rfl⟩ | ⟨rt, member, -, rfl⟩) <;> exact ⟨rt, member, rfl⟩

/-- No subject is both. -/
theorem Subscriber.Sound.disjoint (sound : exec.Sound env)
    (channel : sub ∈ exec.subscriptions.channels) : sub ∉ exec.subscriptions.blocked := by
  intro waits
  obtain ⟨rt, member, route, rfl⟩ := mem_channels.mp channel
  obtain ⟨other, inside, continues, same⟩ := mem_blocked.mp waits
  have equal : other = rt := List.inj_on_of_nodup_map sound.subTab.unique inside member same
  rw [equal, rt.isContinue_eq, route] at continues
  exact absurd continues (by simp)

/-- The literal texts of the table are the ones of the patterns. -/
theorem Subscriber.Sound.mem_literals (sound : exec.Sound env) {lit : Bytes} :
    lit ∈ exec.patTab.tab.map (·.value) ↔
      ∃ p ∈ exec.subscriptions.patterns, env.literal p.1 = some lit := by
  rw [List.mem_map]
  constructor
  · rintro ⟨rt, member, rfl⟩
    obtain ⟨w, holds⟩ := sound.patTab.single rt member
    have inside : w ∈ rt.list := by simp [holds.list]
    exact ⟨w.mark, mem_patterns.mpr ⟨rt, member, w, inside, rfl⟩, holds.literal⟩
  · rintro ⟨p, member, reads⟩
    obtain ⟨rt, inside, w, listed, rfl⟩ := mem_patterns.mp member
    obtain ⟨v, holds⟩ := sound.patTab.single rt inside
    rw [holds.list, List.mem_singleton] at listed
    subst listed
    have same : env.literal w.value = some lit := reads
    rw [holds.literal, Option.some.injEq] at same
    exact ⟨rt, inside, same⟩

end Members

section Hashes

variable {env : RouteEnv} {exec : Subscriber}

theorem RedisSubMap.hashCount_eq (m : RedisSubMap) (h : Nat) :
    m.hashCount h = (m.tab.map (·.hash)).count h := by
  rw [RedisSubMap.hashCount, List.count, List.countP_map]
  exact List.countP_congr fun rt _ => by simp

theorem RedisPatternMap.hashCount_eq (m : RedisPatternMap) (h : Nat) :
    m.hashCount h = (m.tab.map (·.hash)).count h := by
  rw [RedisPatternMap.hashCount, List.count, List.countP_map]
  exact List.countP_congr fun rt _ => by simp

/-- A new entry is announced with the hashes that are there. -/
theorem tells_came {hashes : List Nat} {h : Nat} {coll : Bool}
    (truth : coll = (0 < hashes.count h : Bool)) :
    Tells (hashes : Multiset Nat) ↑(h :: hashes) (.came h coll) := by
  refine ⟨(Multiset.cons_coe h hashes).symm, ?_⟩
  rw [truth, decide_eq_true_eq, List.count_pos_iff, Multiset.mem_coe]

/-- An entry that leaves is announced with the hashes that stay. -/
theorem tells_left {hashes rest : List Nat} {h : Nat} {coll : Bool} (perm : hashes.Perm (h :: rest))
    (truth : coll = (1 < hashes.count h : Bool)) :
    Tells (hashes : Multiset Nat) ↑rest (.left h coll) := by
  refine ⟨?_, ?_⟩
  · rw [Multiset.cons_coe]
    exact Quot.sound perm
  · rw [truth, decide_eq_true_eq, perm.count_eq, List.count_cons_self, Multiset.mem_coe,
      ← List.count_pos_iff]
    omega

end Hashes

section Steps

variable {env : RouteEnv} {exec next : Subscriber} {sub : Bytes}

/-- A step keeps the tables sound where its news are the truth. -/
theorem Subscriber.Sound.step (sound : exec.Sound env) {news : List Notify}
    (hears : next.heard = exec.heard ++ news) (subTab : next.subTab.Sound env)
    (patTab : next.patTab.Sound env)
    (subNews : TellsAll ↑(exec.subTab.tab.map (·.hash)) (news.filterMap Notify.ofSub)
      ↑(next.subTab.tab.map (·.hash)))
    (patNews : TellsAll ↑(exec.patTab.tab.map (·.hash)) (news.filterMap Notify.ofPat)
      ↑(next.patTab.tab.map (·.hash))) : next.Sound env where
  subTab := subTab
  patTab := patTab
  subHeard := by
    rw [hears, List.filterMap_append]
    exact sound.subHeard.append subNews
  patHeard := by
    rw [hears, List.filterMap_append]
    exact sound.patHeard.append patNews

/-- What one subject of a command does. -/
structure Took (env : RouteEnv) (kind : SubKind) (exec : Subscriber) (sub : Bytes)
    (result : ExecStatus × Subscriber) : Prop where
  sound : result.2.Sound env
  subscriptions : result.2.subscriptions = exec.subscriptions.one env kind sub
  total : result.2.total = if result.1 = .execOk then kind.count exec.total else exec.total

theorem doSubscribeCb_took (sound : exec.Sound env) (sub : Bytes) :
    Took env .subscribe exec sub (doSubscribeCb env none exec sub) := by
  rw [doSubscribeCb]
  cases found : exec.subTab.find (env.kvCrcC (env.pref ++ sub) 0) (env.pref ++ sub) with
  | some rt =>
      have there : env.pref ++ sub ∈ exec.subTab.tab.map (·.value) := by
        obtain ⟨member, same⟩ := RedisSubMap.find_some found
        exact List.mem_map.mpr ⟨rt, member, same⟩
      refine ⟨sound.step rfl sound.subTab sound.patTab .nil .nil, ?_, rfl⟩
      change exec.subscriptions = _
      rw [Subscriptions.one]
      rcases mem_values.mp there with channel | waits
      · rw [if_neg (sound.disjoint channel), Finset.insert_eq_of_mem channel]
      · rw [if_pos waits]
  | none =>
      have fresh := (sound.subTab.find_none _).mp found
      refine ⟨sound.step rfl ?_ sound.patTab ?_ .nil, ?_, ?_⟩
      · exact sound.subTab.put fresh rfl (fun _ => List.prefix_append env.pref sub) rfl
          (Or.inl ⟨rfl, rfl⟩)
      · exact tellsAll_singleton (tells_came (by rw [RedisSubMap.hashCount_eq]))
      · rw [mem_values, not_or] at fresh
        rw [Subscriptions.one, if_neg fresh.2]
        ext other
        · simp only [mem_channels, Finset.mem_insert, Subscriber.notify, List.exists_mem_cons_iff]
          simp [RedisSubRoute.isRoute, eq_comm]
        · simp only [mem_blocked, Subscriber.notify, List.exists_mem_cons_iff]
          simp [RedisSubRoute.isContinue]
        · rfl
      · simp only [Subscriber.total, Subscriber.notify, if_true, SubKind.count]
        omega

/-- An entry is removed where there is one of the kind. -/
theorem RedisSubMap.Sound.rem_eq {m : RedisSubMap} (sound : m.Sound env) (sub : Bytes)
    (kind : RedisSubState) :
    (m.rem (env.kvCrcC sub 0) sub kind = none ∧ ∀ rt ∈ m.tab, rt.value = sub → rt.state ≠ kind) ∨
      ∃ rt ∈ m.tab, rt.value = sub ∧ rt.state = kind ∧
        m.rem (env.kvCrcC sub 0) sub kind =
          some ({ m with tab := m.tab.filter (·.value ≠ sub) },
            decide (1 < m.hashCount (env.kvCrcC sub 0))) := by
  rw [RedisSubMap.rem]
  cases found : m.find (env.kvCrcC sub 0) sub with
  | none =>
      refine Or.inl ⟨rfl, fun rt member same => ?_⟩
      exact absurd (List.mem_map.mpr ⟨rt, member, same⟩) ((sound.find_none sub).mp found)
  | some rt =>
      obtain ⟨member, same⟩ := RedisSubMap.find_some found
      by_cases is : rt.state = kind
      · refine Or.inr ⟨rt, member, same, is, ?_⟩
        have removed : m.remove (env.kvCrcC sub 0) sub =
            { m with tab := m.tab.filter (·.value ≠ sub) } := by
          rw [← sound.remove_tab sub]
          rfl
        simp only [if_pos is, removed]
      · refine Or.inl ⟨if_neg is, fun other inside equal => ?_⟩
        have one : other = rt :=
          List.inj_on_of_nodup_map sound.unique inside member (equal.trans same.symm)
        rwa [one]

/-- The hashes of the entries that stay, with the one that leaves. -/
theorem RedisSubMap.Sound.perm_hashes {m : RedisSubMap} (sound : m.Sound env) {rt : RedisSubRoute}
    (member : rt ∈ m.tab) :
    (m.tab.map (·.hash)).Perm
      (env.kvCrcC rt.value 0 :: (m.tab.filter (·.value ≠ rt.value)).map (·.hash)) := by
  rw [← sound.hashed rt member]
  exact (perm_entry sound.unique member).map _

/-- A subject without its entry is neither a channel nor waited for. -/
theorem subscriptions_leave (exec : Subscriber) (sub : Bytes)
    (tab : next.subTab.tab = exec.subTab.tab.filter (·.value ≠ sub))
    (patTab : next.patTab = exec.patTab) :
    next.subscriptions =
      { exec.subscriptions with
        channels := exec.subscriptions.channels.erase sub
        blocked := exec.subscriptions.blocked.erase sub } := by
  ext other
  · simp only [Finset.mem_erase, mem_channels, tab, List.mem_filter, decide_eq_true_eq]
    constructor
    · rintro ⟨rt, ⟨inside, differs⟩, route, rfl⟩
      exact ⟨differs, rt, inside, route, rfl⟩
    · rintro ⟨differs, rt, inside, route, rfl⟩
      exact ⟨rt, ⟨inside, differs⟩, route, rfl⟩
  · simp only [Finset.mem_erase, mem_blocked, tab, List.mem_filter, decide_eq_true_eq]
    constructor
    · rintro ⟨rt, ⟨inside, differs⟩, continues, rfl⟩
      exact ⟨differs, rt, inside, continues, rfl⟩
    · rintro ⟨differs, rt, inside, continues, rfl⟩
      exact ⟨rt, ⟨inside, differs⟩, continues, rfl⟩
  · rw [Subscriber.subscriptions, Subscriber.subscriptions, patTab]

theorem doUnsubscribe_took (sound : exec.Sound env) (sub : Bytes) :
    Took env .unsubscribe exec sub (doUnsubscribe env exec sub) := by
  rw [doUnsubscribe]
  rcases sound.subTab.rem_eq (env.pref ++ sub) .routeData with
    ⟨removed, absent⟩ | ⟨rt, member, same, route, removed⟩
  · rw [removed]
    refine ⟨sound, ?_, rfl⟩
    rw [Subscriptions.one, Finset.erase_eq_of_notMem]
    rw [mem_channels]
    rintro ⟨rt, member, route, same⟩
    exact absent rt member same (by simpa [RedisSubRoute.isRoute] using route)
  · rw [removed]
    have isRoute : rt.isRoute := by simp [RedisSubRoute.isRoute, route]
    have isNot : rt.isContinue = false := by rw [rt.isContinue_eq, isRoute]; rfl
    refine ⟨sound.step rfl ?_ sound.patTab ?_ .nil, ?_, ?_⟩
    · have left := sound.subTab.leave member
      rw [if_pos isRoute, isNot, same] at left
      exact left
    · rw [← same]
      exact tellsAll_singleton (tells_left (sound.subTab.perm_hashes member)
        (by rw [RedisSubMap.hashCount_eq]))
    · have channel : env.pref ++ sub ∈ exec.subscriptions.channels :=
        mem_channels.mpr ⟨rt, member, isRoute, same⟩
      refine (subscriptions_leave exec (env.pref ++ sub) ?_ ?_).trans ?_
      · rfl
      · rfl
      · rw [Finset.erase_eq_of_notMem (sound.disjoint channel)]
        rfl
    · have some : 0 < exec.subTab.subCount := by
        rw [sound.subTab.subs, List.countP_pos_iff]
        exact ⟨rt, member, isRoute⟩
      simp only [Subscriber.total, Subscriber.notify, if_true, SubKind.count]
      omega

theorem RouteEnv.Works.prefixHash_eq (works : env.Works) {cvt : PatternCvt}
    (converts : env.convertGlob sub = some cvt) :
    env.prefixHash sub cvt =
      env.kvCrcC (sub.take cvt.prefixLen) (env.prefixSeed (sub.take cvt.prefixLen).length) := by
  rw [RouteEnv.prefixHash, List.length_take_of_le (works.within sub cvt converts)]

/-- A pattern compiles, or it is no pattern. -/
def RouteEnv.Compiles (env : RouteEnv) (sub : Bytes) : Prop :=
  ∀ cvt, env.convertGlob sub = some cvt → env.createRe sub cvt ≠ none

theorem doPsubscribeCb_adds (works : env.Works) (sound : exec.Sound env) {cb : Option OnMsg}
    (callback : cb = none ∨ cb = some .onRedisInboxMsg) (sub : Bytes) (compiles : env.Compiles (env.pref ++ sub)) :
    (doPsubscribeCb env cb exec sub).2.Sound env ∧
      (doPsubscribeCb env cb exec sub).2.subscriptions =
        exec.subscriptions.addPattern env (env.pref ++ sub) (cb = some .onRedisInboxMsg) ∧
      (doPsubscribeCb env cb exec sub).2.total =
        if (doPsubscribeCb env cb exec sub).1 = .execOk then exec.total + 1 else exec.total := by
  rw [doPsubscribeCb, Subscriptions.addPattern, RouteEnv.literal]
  cases converts : env.convertGlob (env.pref ++ sub) with
  | none => exact ⟨sound, rfl, rfl⟩
  | some cvt =>
      simp only [works.prefixHash_eq converts, Option.map_some]
      cases found : exec.patTab.find
          (env.kvCrcC ((env.pref ++ sub).take cvt.prefixLen)
            (env.prefixSeed ((env.pref ++ sub).take cvt.prefixLen).length))
          ((env.pref ++ sub).take cvt.prefixLen) with
      | some rt =>
          obtain ⟨member, same⟩ := RedisPatternMap.find_some found
          have there := sound.mem_literals.mp (List.mem_map.mpr ⟨rt, member, same⟩)
          rw [if_pos there]
          by_cases listed : rt.list.any (·.value = env.pref ++ sub)
          · simp only [if_pos listed]
            exact ⟨sound.step rfl sound.subTab sound.patTab .nil .nil, rfl, rfl⟩
          · simp only [if_neg listed]
            exact ⟨sound, trivial, rfl⟩
      | none =>
          have fresh := (sound.patTab.find_none _).mp found
          rw [if_neg (fun there => fresh (sound.mem_literals.mpr there))]
          obtain ⟨re, creates⟩ := Option.ne_none_iff_exists'.mp (compiles cvt converts)
          simp only [creates]
          refine ⟨sound.step rfl sound.subTab ?_ .nil ?_, ?_, ?_⟩
          · refine sound.patTab.put fresh rfl
              ⟨rfl, rfl, List.prefix_append env.pref sub, ?_, ?_, callback⟩
            · rw [RouteEnv.literal, converts]
              rfl
            · rw [converts]
              exact creates
          · exact tellsAll_singleton (tells_came (by rw [RedisPatternMap.hashCount_eq]))
          · ext other
            · rfl
            · rfl
            · simp only [mem_patterns, Finset.mem_insert, Subscriber.notify,
                List.exists_mem_cons_iff, List.mem_singleton, exists_eq_left]
              simp [RedisWildMatch.mark, eq_comm]
          · simp only [Subscriber.total, Subscriber.notify, if_true, RedisPatternMap.subCount,
              List.length_cons]
            omega

theorem doPsubscribeCb_took (works : env.Works) (sound : exec.Sound env) (sub : Bytes)
    (compiles : env.Compiles (env.pref ++ sub)) :
    Took env .psubscribe exec sub (doPsubscribeCb env none exec sub) := by
  obtain ⟨after, adds, total⟩ := doPsubscribeCb_adds works sound (Or.inl rfl) sub compiles
  exact ⟨after, adds, total⟩

/-- A pattern is the one of its literal text. -/
theorem Subscriber.Sound.mem_patterns_iff (sound : exec.Sound env) {p : Bytes × Bool} :
    p ∈ exec.subscriptions.patterns ↔
      ∃ rt ∈ exec.patTab.tab, ∃ w, rt.Holds env w ∧ w.mark = p := by
  rw [mem_patterns]
  constructor
  · rintro ⟨rt, member, w, listed, mark⟩
    obtain ⟨v, holds⟩ := sound.patTab.single rt member
    rw [holds.list, List.mem_singleton] at listed
    exact ⟨rt, member, w, listed ▸ holds, mark⟩
  · rintro ⟨rt, member, w, holds, mark⟩
    exact ⟨rt, member, w, by simp [holds.list], mark⟩

/-- The literal text of a listed pattern. -/
theorem literal_of_listed (sound : exec.Sound env) {rt : RedisPatternRoute} {w : RedisWildMatch}
    (member : rt ∈ exec.patTab.tab) (listed : w ∈ rt.list) :
    env.literal w.value = some rt.value := by
  obtain ⟨v, holds⟩ := sound.patTab.single rt member
  rw [holds.list, List.mem_singleton] at listed
  rw [listed, holds.literal]

/-- A pattern that is not there does not leave. -/
theorem one_punsubscribe_of_absent {t : Subscriptions}
    (absent : ∀ p ∈ t.patterns, p.1 ≠ env.pref ++ sub) : t.one env .punsubscribe sub = t := by
  ext other
  · rfl
  · rfl
  · simp only [Subscriptions.one, Finset.mem_filter, and_iff_left_iff_imp]
    exact absent other

theorem doPunsubscribe_took (works : env.Works) (sound : exec.Sound env) (sub : Bytes) :
    Took env .punsubscribe exec sub (doPunsubscribe env exec sub) := by
  have literals : ∀ p ∈ exec.subscriptions.patterns, p.1 = env.pref ++ sub →
      ∃ rt ∈ exec.patTab.tab, ∃ w, rt.Holds env w ∧ w.value = env.pref ++ sub ∧
        env.literal (env.pref ++ sub) = some rt.value := by
    intro p member same
    obtain ⟨rt, inside, w, holds, rfl⟩ := sound.mem_patterns_iff.mp member
    exact ⟨rt, inside, w, holds, same, same ▸ holds.literal⟩
  rw [doPunsubscribe]
  cases converts : env.convertGlob (env.pref ++ sub) with
  | none =>
      refine ⟨sound, (one_punsubscribe_of_absent fun p member same => ?_).symm, rfl⟩
      obtain ⟨rt, -, w, -, -, literal⟩ := literals p member same
      rw [RouteEnv.literal, converts] at literal
      exact absurd literal (by simp)
  | some cvt =>
      have literal : env.literal (env.pref ++ sub) = some ((env.pref ++ sub).take cvt.prefixLen) := by
        rw [RouteEnv.literal, converts, Option.map_some]
      simp only [works.prefixHash_eq converts]
      cases found : exec.patTab.find
          (env.kvCrcC ((env.pref ++ sub).take cvt.prefixLen)
            (env.prefixSeed ((env.pref ++ sub).take cvt.prefixLen).length))
          ((env.pref ++ sub).take cvt.prefixLen) with
      | none =>
          refine ⟨sound, (one_punsubscribe_of_absent fun p member same => ?_).symm, rfl⟩
          obtain ⟨rt, inside, w, -, -, reads⟩ := literals p member same
          rw [literal, Option.some.injEq] at reads
          exact (sound.patTab.find_none _).mp found (List.mem_map.mpr ⟨rt, inside, reads.symm⟩)
      | some rt =>
          obtain ⟨member, same⟩ := RedisPatternMap.find_some found
          obtain ⟨w, holds⟩ := sound.patTab.single rt member
          have only : ∀ r ∈ exec.patTab.tab, r.value = rt.value → r = rt := fun r inside equal =>
            List.inj_on_of_nodup_map sound.patTab.unique inside member equal
          by_cases is : w.value = env.pref ++ sub
          · have listed : rt.list.any (·.value = env.pref ++ sub) = true := by simp [holds.list, is]
            simp only [if_pos listed, holds.count, Nat.sub_self, if_true, ← same]
            have others := sound.patTab.remove_tab rt.value
            refine ⟨sound.step rfl sound.subTab ?_ .nil ?_, ?_, ?_⟩
            · have left := sound.patTab.leave rt.value
              rw [← others] at left
              exact left
            · refine tellsAll_singleton (tells_left ?_ ?_)
              · rw [← sound.patTab.hashed rt member] at others ⊢
                simp only [Subscriber.notify, others]
                exact (perm_entry sound.patTab.unique member).map _
              · rw [RedisPatternMap.hashCount_eq]
                simp
            · ext p
              · rfl
              · rfl
              · simp only [mem_patterns, Subscriber.notify, others, Subscriptions.one,
                  Finset.mem_filter, List.mem_filter, decide_eq_true_eq]
                constructor
                · rintro ⟨r, ⟨inside, other⟩, v, listed, rfl⟩
                  refine ⟨⟨r, inside, v, listed, rfl⟩, fun equal => other ?_⟩
                  have reads := literal_of_listed sound inside listed
                  have named : v.value = env.pref ++ sub := equal
                  rw [named, literal, Option.some.injEq] at reads
                  exact reads.symm.trans same.symm
                · rintro ⟨⟨r, inside, v, listed, rfl⟩, differs⟩
                  refine ⟨r, ⟨inside, fun equal => differs ?_⟩, v, listed, rfl⟩
                  rw [only r inside equal, holds.list, List.mem_singleton] at listed
                  exact listed ▸ is
            · have length := (perm_entry sound.patTab.unique member).length_eq
              simp only [Subscriber.total, Subscriber.notify, if_true, SubKind.count,
                RedisPatternMap.subCount, others, length, List.length_cons]
              omega
          · have listed : ¬rt.list.any (·.value = env.pref ++ sub) = true := by simp [holds.list, is]
            simp only [if_neg listed]
            refine ⟨sound, (one_punsubscribe_of_absent fun p inside equal => ?_).symm, rfl⟩
            obtain ⟨r, there, v, holds', value, reads⟩ := literals p inside equal
            rw [literal, Option.some.injEq] at reads
            have one := only r there (reads.symm.trans same.symm)
            rw [one] at holds'
            have lists : [v] = [w] := holds'.list.symm.trans holds.list
            rw [List.cons.injEq] at lists
            exact is (lists.1 ▸ value)

theorem wait_of_taken {t : Subscriptions} (taken : sub ∈ t.channels ∨ sub ∈ t.blocked) :
    t.wait [sub] = t := by
  ext other
  · rfl
  · simp only [Subscriptions.wait, Finset.mem_union, Finset.mem_sdiff, List.mem_toFinset,
      List.mem_singleton]
    constructor
    · rintro (waits | ⟨rfl, free⟩)
      · exact waits
      · exact taken.resolve_left free
    · exact Or.inl
  · rfl

theorem wait_cons (t : Subscriptions) (sub : Bytes) (subs : List Bytes) :
    t.wait (sub :: subs) = (t.wait [sub]).wait subs := by
  ext other
  · rfl
  · simp only [Subscriptions.wait, Finset.mem_union, Finset.mem_sdiff, List.mem_toFinset,
      List.mem_cons, List.not_mem_nil, or_false, or_and_right, or_assoc]
  · rfl

theorem saveBlockedOne_waits (sound : exec.Sound env) (cm : RedisContinueMsg) (sub : Bytes) :
    (saveBlockedOne env exec cm sub).1.Sound env ∧
      (saveBlockedOne env exec cm sub).1.subscriptions = exec.subscriptions.wait [sub] ∧
      (saveBlockedOne env exec cm sub).2 =
        { cm with contTab := cm.contTab || exec.subscriptions.takes [sub] } := by
  rw [saveBlockedOne]
  cases found : exec.subTab.find (env.kvCrcC sub 0) sub with
  | some rt =>
      have there : sub ∈ exec.subTab.tab.map (·.value) := by
        obtain ⟨member, same⟩ := RedisSubMap.find_some found
        exact List.mem_map.mpr ⟨rt, member, same⟩
      have taken := mem_values.mp there
      refine ⟨⟨sound.subTab, sound.patTab, sound.subHeard, sound.patHeard⟩, ?_, ?_⟩
      · rw [wait_of_taken taken]
        rfl
      · have not : exec.subscriptions.takes [sub] = false := by
          simpa [Subscriptions.takes, or_iff_not_imp_left] using taken
        rw [not, Bool.or_false]
  | none =>
      have fresh := (sound.subTab.find_none _).mp found
      have free := fresh
      rw [mem_values, not_or] at free
      refine ⟨sound.step rfl ?_ sound.patTab ?_ .nil, ?_, ?_⟩
      · exact sound.subTab.put fresh rfl (fun route => absurd route (by simp [RedisSubRoute.isRoute]))
          rfl (Or.inr ⟨rfl, rfl, rfl⟩)
      · exact tellsAll_singleton (tells_came (by rw [RedisSubMap.hashCount_eq]))
      · ext other
        · simp only [Subscriptions.wait, mem_channels, Subscriber.notify, List.exists_mem_cons_iff]
          simp [RedisSubRoute.isRoute]
        · simp only [Subscriptions.wait, Finset.mem_union, Finset.mem_sdiff, List.mem_toFinset,
            List.mem_singleton, mem_blocked, Subscriber.notify, List.exists_mem_cons_iff]
          constructor
          · rintro (⟨-, rfl⟩ | waits)
            · exact Or.inr ⟨rfl, free.1⟩
            · exact Or.inl waits
          · rintro (waits | ⟨rfl, -⟩)
            · exact Or.inr waits
            · exact Or.inl ⟨rfl, rfl⟩
        · rfl
      · simp [Subscriptions.takes, free]

theorem saveBlocked_waits (subs : List Bytes) (sound : exec.Sound env) (cm : RedisContinueMsg) :
    let result := subs.foldl (fun st sub => saveBlockedOne env st.1 st.2 sub) (exec, cm)
    result.1.Sound env ∧ result.1.subscriptions = exec.subscriptions.wait subs ∧
      result.2 = { cm with contTab := cm.contTab || exec.subscriptions.takes subs } := by
  induction subs generalizing exec cm with
  | nil =>
      refine ⟨sound, ?_, ?_⟩
      · simp [Subscriptions.wait]
      · simp [Subscriptions.takes]
  | cons sub subs ih =>
      obtain ⟨first, waits, cont⟩ := saveBlockedOne_waits sound cm sub
      obtain ⟨last, rest, conts⟩ := ih first (saveBlockedOne env exec cm sub).2
      refine ⟨last, ?_, ?_⟩
      · rw [List.foldl_cons, rest, waits, ← wait_cons]
      · rw [List.foldl_cons, conts, cont, waits]
        by_cases taken : sub ∈ exec.subscriptions.channels ∨ sub ∈ exec.subscriptions.blocked
        · rw [wait_of_taken taken]
          simp [Subscriptions.takes, Bool.or_assoc]
        · rw [not_or] at taken
          simp [Subscriptions.takes, taken.1, taken.2]

/-- The subjects of a command leave the table. -/
theorem popContinueSubs_done (subs : List Bytes) (exec : Subscriber)
    (sound : exec.subTab.Sound env) :
    let result := popContinueSubs env exec subs
    result.1.subTab.Sound env ∧ result.1.patTab = exec.patTab ∧ result.1.heard = exec.heard ∧
      TellsAll ↑(exec.subTab.tab.map (·.hash)) (result.2.filterMap Notify.ofSub)
        ↑(result.1.subTab.tab.map (·.hash)) ∧
      result.2.filterMap Notify.ofPat = [] ∧
      result.1.subscriptions = exec.subscriptions.done subs := by
  induction subs generalizing exec with
  | nil =>
      refine ⟨sound, rfl, rfl, .nil, rfl, ?_⟩
      simp [popContinueSubs, Subscriptions.done]
  | cons sub subs ih =>
      rw [popContinueSubs]
      rcases sound.rem_eq sub .continueData with
        ⟨removed, absent⟩ | ⟨rt, member, same, continues, removed⟩
      · rw [removed]
        obtain ⟨after, patTab, heard, tells, quiet, done⟩ := ih exec sound
        refine ⟨after, patTab, heard, tells, quiet, ?_⟩
        rw [done]
        have not : sub ∉ exec.subscriptions.blocked := by
          rw [mem_blocked]
          rintro ⟨rt, member, isContinue, same⟩
          exact absent rt member same (by simpa [RedisSubRoute.isContinue] using isContinue)
        ext other
        · rfl
        · simp only [Subscriptions.done, Finset.mem_sdiff, List.mem_toFinset, List.mem_cons, not_or]
          constructor
          · rintro ⟨waits, rest⟩
            exact ⟨waits, fun equal => not (equal ▸ waits), rest⟩
          · rintro ⟨waits, -, rest⟩
            exact ⟨waits, rest⟩
        · rfl
      · have isContinue : rt.isContinue := by simp [RedisSubRoute.isContinue, continues]
        have isNot : rt.isRoute = false := by simp [RedisSubRoute.isRoute, continues]
        rw [removed]
        have left := sound.leave member
        rw [if_pos isContinue, isNot, same] at left
        obtain ⟨after, patTab, heard, tells, quiet, done⟩ := ih
          { exec with
            subTab :=
              { exec.subTab with
                tab := exec.subTab.tab.filter (·.value ≠ sub)
                contCount := exec.subTab.contCount - 1 } } left
        refine ⟨after, patTab, heard, ?_, quiet, ?_⟩
        · refine ⟨_, tells_left ?_ ?_, tells⟩
          · rw [← same]
            exact sound.perm_hashes member
          · rw [RedisSubMap.hashCount_eq]
        · refine (done.trans (congrArg (Subscriptions.done · subs)
            (subscriptions_leave exec sub rfl rfl))).trans ?_
          rw [Finset.erase_eq_of_notMem]
          · ext other
            · rfl
            · simp only [Subscriptions.done, Finset.mem_sdiff, Finset.mem_erase, List.mem_toFinset,
                List.mem_cons, not_or]
              tauto
            · rfl
          · intro channel
            obtain ⟨other, inside, route, equal⟩ := mem_channels.mp channel
            have one : other = rt :=
              List.inj_on_of_nodup_map sound.unique inside member (equal.trans same.symm)
            rw [one, isNot] at route
            exact absurd route (by simp)

end Steps

end Raids.Pubsub
