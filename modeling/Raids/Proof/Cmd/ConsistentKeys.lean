import Raids.Construction.Exec.Request
import Raids.Proof.Cmd.MovableKeys

namespace Raids

/-- The last but one argument of a radius query is not a store option. -/
def NoLastStore (msg : CommandMsg) : Prop :=
  msg.matchArg (msg.argc - 2) [text "STORE", text "STOREDIST"] = 0

/-- The arguments for which the keys of a command are consistent. -/
def KeysFit (cmd : RedisCmd) (msg : CommandMsg) : Prop :=
  match cmd with
  | .msetCmd | .msetnxCmd => msg.argc % 2 = 1
  | .blpopCmd | .brpopCmd | .bzpopminCmd | .bzpopmaxCmd | .objectCmd => False
  | .xinfoCmd | .xgroupCmd => 2 < msg.argc
  | .georadiusCmd =>
      NoLastStore msg ∧ ∀ keys, GeoOptions 6 (msg.args.drop 6) keys → keys = []
  | .georadiusbymemberCmd =>
      NoLastStore msg ∧ ∀ keys, GeoOptions 5 (msg.args.drop 5) keys → keys = []
  | .zinterstoreCmd | .zunionstoreCmd =>
      ∀ nkeys, msg.getArgInt 2 = some nkeys → 0 ≤ nkeys ∧ nkeys ≤ 61
  | _ => True

theorem keysFit_regular {cmd : RedisCmd} (regular : cmd ∉ irregularCmds) (msg : CommandMsg) :
    KeysFit cmd msg := by
  revert regular
  cases cmd <;> first | exact fun _ => trivial | exact fun regular => absurd (by decide) regular

section Accepted

variable {cmd : RedisCmd} {msg : CommandMsg} {g : Geometry}

theorem arityOk_of_accepted (accepted : keyGeometry cmd msg = some g) :
    arityOk (cmdDb cmd) msg.argc := by
  by_contra refused
  rw [keyGeometry, if_pos refused] at accepted
  cases accepted

/-- The keys of an accepted command come from the table. -/
theorem fixedKeys (accepted : keyGeometry cmd msg = some g)
    (fixed : (cmdDb cmd).flags &&& cmdMovableFlag = 0) : g = setupCmd (cmdDb cmd) := by
  rw [keyGeometry, if_neg (not_not.mpr (arityOk_of_accepted accepted)),
    if_neg (not_not.mpr fixed)] at accepted
  exact (Option.some.inj accepted).symm

/-- The keys of an accepted command with movable keys come from its arguments. -/
theorem movableKeys (accepted : keyGeometry cmd msg = some g)
    (movable : (cmdDb cmd).flags &&& cmdMovableFlag ≠ 0) : locateMovablekeys cmd msg = some g := by
  rwa [keyGeometry, if_neg (not_not.mpr (arityOk_of_accepted accepted)), if_pos movable]
    at accepted

/-- The keys of an accepted store. -/
theorem consistentKeys_iff_store (isStore : cmd = .zinterstoreCmd ∨ cmd = .zunionstoreCmd)
    (accepted : keyGeometry cmd msg = some g) :
    ConsistentKeys cmd msg g ↔
      ∀ nkeys, msg.getArgInt 2 = some nkeys → 0 ≤ nkeys ∧ nkeys ≤ 61 := by
  have arity := arity_le (arityOk_of_accepted accepted)
  have located : locateStore msg = some g := by
    rcases isStore with rfl | rfl <;> exact movableKeys accepted (by decide)
  rw [locateStore] at located
  cases number : msg.getArgInt 2 with
  | none =>
      rw [number] at located
      cases located
  | some i =>
      rw [number] at located
      simp only at located
      split at located
      · cases located
      · rename_i inside
        obtain rfl := Option.some.inj located
        have grammar : ∀ keys, KeySyntax msg cmd keys ↔
            ∃ n : Nat, i = n ∧ 0 < n ∧ keys = 1 :: List.range' 3 n := by
          intro keys
          constructor
          · intro inSyntax
            cases inSyntax with
            | zinterstore number' positive _ | zunionstore number' positive _ =>
                rw [number] at number'
                exact ⟨_, Option.some.inj number', positive, rfl⟩
            | georadius | georadiusbymember | xread | xreadgroup => simp at isStore
          · rintro ⟨n, rfl, positive, rfl⟩
            rcases isStore with rfl | rfl
            · exact .zinterstore number positive (by omega)
            · exact .zunionstore number positive (by omega)
        have enough : 4 ≤ msg.argc := by
          rcases isStore with rfl | rfl <;> simpa [cmdDb] using arity
        rw [consistentKeys_store (by omega) enough grammar]
        simp

/-- The keys of an accepted radius query. -/
theorem consistentKeys_iff_radius (options : Nat)
    (isRadius : cmd = .georadiusCmd ∧ options = 6 ∨ cmd = .georadiusbymemberCmd ∧ options = 5)
    (accepted : keyGeometry cmd msg = some g) :
    ConsistentKeys cmd msg g ↔ NoLastStore msg ∧
      ∀ keys, GeoOptions options (msg.args.drop options) keys → keys = [] := by
  have arity := arity_le (arityOk_of_accepted accepted)
  have enough : options ≤ msg.argc ∧ 5 ≤ options := by
    rcases isRadius with ⟨rfl, rfl⟩ | ⟨rfl, rfl⟩
    · exact ⟨by simpa [cmdDb] using arity, by omega⟩
    · exact ⟨by simpa [cmdDb] using arity, by omega⟩
  have located : locateRadius msg = some g := by
    rcases isRadius with ⟨rfl, -⟩ | ⟨rfl, -⟩ <;> exact movableKeys accepted (by decide)
  rw [locateRadius] at located
  have grammar : ∀ keys, KeySyntax msg cmd keys ↔
      ∃ stores, GeoOptions options (msg.args.drop options) stores ∧ keys = 1 :: stores := by
    intro keys
    constructor
    · intro inSyntax
      cases inSyntax with
      | georadius _ stores | georadiusbymember _ stores =>
          obtain rfl : options = _ := by simpa using isRadius
          exact ⟨_, stores, rfl⟩
      | zinterstore | zunionstore | xread | xreadgroup => simp at isRadius
    · rintro ⟨stores, inOptions, rfl⟩
      rcases isRadius with ⟨rfl, rfl⟩ | ⟨rfl, rfl⟩
      · exact .georadius enough.1 inOptions
      · exact .georadiusbymember enough.1 inOptions
  by_cases store : NoLastStore msg
  · rw [if_neg (fun both => both.2 store)] at located
    obtain rfl := Option.some.inj located
    rw [consistentKeys_radius (by omega)]
    simp only [store, true_and, grammar, forall_exists_index, and_imp]
    constructor
    · intro single stores inOptions
      simpa using single _ stores inOptions rfl
    · rintro none_ keys stores inOptions rfl
      rw [none_ stores inOptions]
  · rw [if_pos ⟨by omega, store⟩] at located
    obtain rfl := Option.some.inj located
    exact iff_of_false (not_consistentKeys_radiusStore (by omega)) fun both => store both.1

end Accepted

section Fixed

variable {cmd : RedisCmd} {msg : CommandMsg} {g : Geometry}

theorem consistentKeys_iff_pairs (isPairs : cmd = .msetCmd ∨ cmd = .msetnxCmd)
    (accepted : keyGeometry cmd msg = some g) :
    ConsistentKeys cmd msg g ↔ msg.argc % 2 = 1 := by
  have arity := arity_le (arityOk_of_accepted accepted)
  rcases isPairs with rfl | rfl
  all_goals
    rw [fixedKeys accepted (by decide)]
    exact consistentKeys_pairs (by simpa [cmdDb] using arity) (by rintro keys ⟨⟩)

theorem consistentKeys_iff_timeout
    (isTimeout : cmd = .blpopCmd ∨ cmd = .brpopCmd ∨ cmd = .bzpopminCmd ∨ cmd = .bzpopmaxCmd)
    (accepted : keyGeometry cmd msg = some g) : ConsistentKeys cmd msg g ↔ False := by
  have arity := arity_le (arityOk_of_accepted accepted)
  rcases isTimeout with rfl | rfl | rfl | rfl
  all_goals
    rw [fixedKeys accepted (by decide), iff_false]
    exact not_consistentKeys_timeout (by simpa [cmdDb] using arity)

theorem consistentKeys_iff_subcommand (isSubcommand : cmd = .xinfoCmd ∨ cmd = .xgroupCmd)
    (accepted : keyGeometry cmd msg = some g) : ConsistentKeys cmd msg g ↔ 2 < msg.argc := by
  rcases isSubcommand with rfl | rfl
  all_goals
    rw [fixedKeys accepted (by decide)]
    exact consistentKeys_subcommand (by rintro keys ⟨⟩)

end Fixed

/-- The keys of an accepted command are consistent exactly for these arguments. -/
theorem consistentKeys_iff (cmd : RedisCmd) (msg : CommandMsg) (g : Geometry)
    (accepted : keyGeometry cmd msg = some g) : ConsistentKeys cmd msg g ↔ KeysFit cmd msg := by
  by_cases irregular : cmd ∈ irregularCmds
  · simp only [irregularCmds, List.mem_cons, List.not_mem_nil, or_false] at irregular
    rcases irregular with rfl | rfl | rfl | rfl | rfl | rfl | rfl | rfl | rfl | rfl | rfl | rfl |
      rfl | rfl | rfl
    · exact consistentKeys_iff_pairs (by decide) accepted
    · exact consistentKeys_iff_pairs (by decide) accepted
    · exact consistentKeys_iff_timeout (by decide) accepted
    · exact consistentKeys_iff_timeout (by decide) accepted
    · exact consistentKeys_iff_timeout (by decide) accepted
    · exact consistentKeys_iff_timeout (by decide) accepted
    · rw [fixedKeys accepted (by decide)]
      exact iff_of_false not_consistentKeys_object not_false
    · exact consistentKeys_iff_subcommand (by decide) accepted
    · exact consistentKeys_iff_subcommand (by decide) accepted
    · exact consistentKeys_iff_radius 6 (by decide) accepted
    · exact consistentKeys_iff_radius 5 (by decide) accepted
    · exact consistentKeys_iff_store (by decide) accepted
    · exact consistentKeys_iff_store (by decide) accepted
    · refine iff_of_true (consistentKeys_streams (by decide) (movableKeys accepted (by decide)) ?_)
        trivial
      rintro keys ⟨options⟩
      assumption
    · refine iff_of_true (consistentKeys_streams (by decide) (movableKeys accepted (by decide)) ?_)
        trivial
      rintro keys ⟨options⟩
      assumption
  · obtain rfl := fixedKeys accepted (regular_cmdDb irregular).1
    exact iff_of_true (consistentKeys_regular irregular (arityOk_of_accepted accepted))
      (keysFit_regular irregular msg)

/-- The keys of a store of two sets are consistent. -/
theorem consistentKeys_zunionstore :
    ConsistentKeys .zunionstoreCmd
      ⟨commandWords ["zunionstore", "d", "2", "a", "b", "weights", "1", "2"], by decide⟩
      (storeKeys 2) := by
  have accepted : keyGeometry .zunionstoreCmd
      ⟨commandWords ["zunionstore", "d", "2", "a", "b", "weights", "1", "2"], by decide⟩ =
        some (storeKeys 2) := by decide
  refine (consistentKeys_iff _ _ _ accepted).mpr fun nkeys number => ?_
  have two : nkeys = 2 := Option.some.inj (number.symm.trans (by decide))
  omega

/-- A radius query with a store enumerates two keys and has room for one. -/
theorem not_consistentKeys_georadiusbymember :
    ¬∀ (cmd : RedisCmd) (msg : CommandMsg) (g : Geometry), keyGeometry cmd msg = some g →
      ConsistentKeys cmd msg g := by
  intro all
  let msg : CommandMsg :=
    ⟨commandWords ["georadiusbymember", "k", "m", "1", "km", "STORE", "d"], by decide⟩
  have keys : keyIndices (radiusStoreKeys 7) 7 = [1, 6] := by decide
  have count : calcKeyCount (radiusStoreKeys 7) 7 = 1 := by decide
  have consistent := all .georadiusbymemberCmd msg (radiusStoreKeys 7) (by decide)
  have filled := consistent.filled
  change (keyIndices (radiusStoreKeys 7) 7).length = calcKeyCount (radiusStoreKeys 7) 7 at filled
  rw [keys, count] at filled
  cases filled

end Raids
