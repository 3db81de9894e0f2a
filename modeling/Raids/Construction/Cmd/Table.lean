import Mathlib.Tactic

namespace Raids

/-- The commands of the command table. -/
inductive RedisCmd where
  | noCmd | echoCmd | pingCmd | quitCmd | selectCmd | clientCmd | commandCmd | configCmd
  | dbsizeCmd | debugCmd | flushallCmd | flushdbCmd | infoCmd | monitorCmd | saveCmd | loadCmd
  | shutdownCmd | timeCmd | delCmd | dumpCmd | existsCmd | expireCmd | expireatCmd | keysCmd
  | objectCmd | persistCmd | pexpireCmd | pexpireatCmd | pttlCmd | randomkeyCmd | renameCmd
  | renamenxCmd | restoreCmd | touchCmd | ttlCmd | typeCmd | unlinkCmd | scanCmd | appendCmd
  | bitcountCmd | bitfieldCmd | bitopCmd | bitposCmd | decrCmd | decrbyCmd | getCmd | getbitCmd
  | getrangeCmd | getsetCmd | incrCmd | incrbyCmd | incrbyfloatCmd | mgetCmd | msetCmd
  | msetnxCmd | psetexCmd | setCmd | setbitCmd | setexCmd | setnxCmd | setrangeCmd | strlenCmd
  | blpopCmd | brpopCmd | brpoplpushCmd | lindexCmd | linsertCmd | llenCmd | lpopCmd | lpushCmd
  | lpushxCmd | lrangeCmd | lremCmd | lsetCmd | ltrimCmd | rpopCmd | rpoplpushCmd | rpushCmd
  | rpushxCmd | happendCmd | hdelCmd | hexistsCmd | hgetCmd | hgetallCmd | hincrbyCmd
  | hincrbyfloatCmd | hkeysCmd | hlenCmd | hmgetCmd | hmsetCmd | hsetCmd | hsetnxCmd | hstrlenCmd
  | hvalsCmd | hscanCmd | saddCmd | scardCmd | sdiffCmd | sdiffstoreCmd | sinterCmd
  | sinterstoreCmd | sismemberCmd | smembersCmd | smoveCmd | spopCmd | srandmemberCmd | sremCmd
  | sunionCmd | sunionstoreCmd | sscanCmd | zaddCmd | zcardCmd | zcountCmd | zincrbyCmd
  | zinterstoreCmd | zlexcountCmd | zrangeCmd | zrangebylexCmd | zrevrangebylexCmd
  | zrangebyscoreCmd | zrankCmd | zremCmd | zremrangebylexCmd | zremrangebyrankCmd
  | zremrangebyscoreCmd | zrevrangeCmd | zrevrangebyscoreCmd | zrevrankCmd | zscoreCmd
  | zunionstoreCmd | zscanCmd | zpopminCmd | zpopmaxCmd | bzpopminCmd | bzpopmaxCmd | geoaddCmd
  | geohashCmd | geoposCmd | geodistCmd | georadiusCmd | georadiusbymemberCmd | pfaddCmd
  | pfcountCmd | pfmergeCmd | psubscribeCmd | pubsubCmd | publishCmd | punsubscribeCmd
  | subscribeCmd | unsubscribeCmd | discardCmd | execCmd | multiCmd | unwatchCmd | watchCmd
  | xinfoCmd | xaddCmd | xtrimCmd | xdelCmd | xrangeCmd | xrevrangeCmd | xlenCmd | xreadCmd
  | xgroupCmd | xreadgroupCmd | xackCmd | xclaimCmd | xpendingCmd | xsetidCmd
  deriving DecidableEq, Repr

/-- The flag bits of a command. -/
def cmdNoFlags : Nat := 0
def cmdAdminFlag : Nat := 1
def cmdReadFlag : Nat := 2
def cmdWriteFlag : Nat := 4
def cmdMovableFlag : Nat := 8
def cmdReadMvFlag : Nat := cmdReadFlag ||| cmdMovableFlag
def cmdWriteMvFlag : Nat := cmdWriteFlag ||| cmdMovableFlag

/-- A positive arity is exact and a negative one is a minimum. The keys are the arguments from
`first` to `last` in steps; a negative `last` counts from the end of the message. -/
structure RedisCmdData where
  flags : Nat
  arity : Int
  first : Int
  last : Int
  step : Int
  deriving DecidableEq, Repr

/-- The command table. -/
def cmdDb : RedisCmd → RedisCmdData
  | .noCmd => ⟨cmdNoFlags, 0, 0, 0, 0⟩
  | .echoCmd => ⟨cmdNoFlags, 2, 0, 0, 0⟩
  | .pingCmd => ⟨cmdNoFlags, -1, 0, 0, 0⟩
  | .quitCmd => ⟨cmdNoFlags, -1, 0, 0, 0⟩
  | .selectCmd => ⟨cmdNoFlags, 2, 0, 0, 0⟩
  | .clientCmd => ⟨cmdAdminFlag, -2, 0, 0, 0⟩
  | .commandCmd => ⟨cmdNoFlags, -1, 0, 0, 0⟩
  | .configCmd => ⟨cmdAdminFlag, -2, 0, 0, 0⟩
  | .dbsizeCmd => ⟨cmdNoFlags, 1, 0, 0, 0⟩
  | .debugCmd => ⟨cmdAdminFlag, -1, 0, 0, 0⟩
  | .flushallCmd => ⟨cmdAdminFlag, -1, 0, 0, 0⟩
  | .flushdbCmd => ⟨cmdAdminFlag, -1, 0, 0, 0⟩
  | .infoCmd => ⟨cmdNoFlags, -1, 0, 0, 0⟩
  | .monitorCmd => ⟨cmdAdminFlag, 1, 0, 0, 0⟩
  | .saveCmd => ⟨cmdAdminFlag, 1, 0, 0, 0⟩
  | .loadCmd => ⟨cmdAdminFlag, 1, 0, 0, 0⟩
  | .shutdownCmd => ⟨cmdAdminFlag, -1, 0, 0, 0⟩
  | .timeCmd => ⟨cmdNoFlags, 1, 0, 0, 0⟩
  | .delCmd => ⟨cmdWriteFlag, -2, 1, -1, 1⟩
  | .dumpCmd => ⟨cmdReadFlag, 2, 1, 1, 1⟩
  | .existsCmd => ⟨cmdReadFlag, -2, 1, -1, 1⟩
  | .expireCmd => ⟨cmdWriteFlag, 3, 1, 1, 1⟩
  | .expireatCmd => ⟨cmdWriteFlag, 3, 1, 1, 1⟩
  | .keysCmd => ⟨cmdReadFlag, 2, 0, 0, 0⟩
  | .objectCmd => ⟨cmdReadFlag, -2, 2, 2, 2⟩
  | .persistCmd => ⟨cmdWriteFlag, 2, 1, 1, 1⟩
  | .pexpireCmd => ⟨cmdWriteFlag, 3, 1, 1, 1⟩
  | .pexpireatCmd => ⟨cmdWriteFlag, 3, 1, 1, 1⟩
  | .pttlCmd => ⟨cmdReadFlag, 2, 1, 1, 1⟩
  | .randomkeyCmd => ⟨cmdReadFlag, 1, 0, 0, 0⟩
  | .renameCmd => ⟨cmdWriteFlag, 3, 1, 2, 1⟩
  | .renamenxCmd => ⟨cmdWriteFlag, 3, 1, 2, 1⟩
  | .restoreCmd => ⟨cmdWriteFlag, -4, 1, 1, 1⟩
  | .touchCmd => ⟨cmdWriteFlag, -2, 1, 1, 1⟩
  | .ttlCmd => ⟨cmdReadFlag, 2, 1, 1, 1⟩
  | .typeCmd => ⟨cmdReadFlag, 2, 1, 1, 1⟩
  | .unlinkCmd => ⟨cmdWriteFlag, -2, 1, -1, 1⟩
  | .scanCmd => ⟨cmdReadFlag, -2, 0, 0, 0⟩
  | .appendCmd => ⟨cmdWriteFlag, 3, 1, 1, 1⟩
  | .bitcountCmd => ⟨cmdReadFlag, -2, 1, 1, 1⟩
  | .bitfieldCmd => ⟨cmdWriteFlag, -2, 1, 1, 1⟩
  | .bitopCmd => ⟨cmdWriteFlag, -4, 2, -1, 1⟩
  | .bitposCmd => ⟨cmdReadFlag, -3, 1, 1, 1⟩
  | .decrCmd => ⟨cmdWriteFlag, 2, 1, 1, 1⟩
  | .decrbyCmd => ⟨cmdWriteFlag, 3, 1, 1, 1⟩
  | .getCmd => ⟨cmdReadFlag, 2, 1, 1, 1⟩
  | .getbitCmd => ⟨cmdReadFlag, 3, 1, 1, 1⟩
  | .getrangeCmd => ⟨cmdReadFlag, 4, 1, 1, 1⟩
  | .getsetCmd => ⟨cmdWriteFlag, 3, 1, 1, 1⟩
  | .incrCmd => ⟨cmdWriteFlag, 2, 1, 1, 1⟩
  | .incrbyCmd => ⟨cmdWriteFlag, 3, 1, 1, 1⟩
  | .incrbyfloatCmd => ⟨cmdWriteFlag, 3, 1, 1, 1⟩
  | .mgetCmd => ⟨cmdReadFlag, -2, 1, -1, 1⟩
  | .msetCmd => ⟨cmdWriteFlag, -3, 1, -1, 2⟩
  | .msetnxCmd => ⟨cmdWriteFlag, -3, 1, -1, 2⟩
  | .psetexCmd => ⟨cmdWriteFlag, 4, 1, 1, 1⟩
  | .setCmd => ⟨cmdWriteFlag, -3, 1, 1, 1⟩
  | .setbitCmd => ⟨cmdWriteFlag, 4, 1, 1, 1⟩
  | .setexCmd => ⟨cmdWriteFlag, 4, 1, 1, 1⟩
  | .setnxCmd => ⟨cmdWriteFlag, 3, 1, 1, 1⟩
  | .setrangeCmd => ⟨cmdWriteFlag, 4, 1, 1, 1⟩
  | .strlenCmd => ⟨cmdReadFlag, 2, 1, 1, 1⟩
  | .blpopCmd => ⟨cmdWriteFlag, -3, 1, -2, 1⟩
  | .brpopCmd => ⟨cmdWriteFlag, -3, 1, -2, 1⟩
  | .brpoplpushCmd => ⟨cmdWriteFlag, 4, 1, 2, 1⟩
  | .lindexCmd => ⟨cmdReadFlag, 3, 1, 1, 1⟩
  | .linsertCmd => ⟨cmdWriteFlag, 5, 1, 1, 1⟩
  | .llenCmd => ⟨cmdReadFlag, 2, 1, 1, 1⟩
  | .lpopCmd => ⟨cmdWriteFlag, 2, 1, 1, 1⟩
  | .lpushCmd => ⟨cmdWriteFlag, -3, 1, 1, 1⟩
  | .lpushxCmd => ⟨cmdWriteFlag, -3, 1, 1, 1⟩
  | .lrangeCmd => ⟨cmdReadFlag, 4, 1, 1, 1⟩
  | .lremCmd => ⟨cmdWriteFlag, 4, 1, 1, 1⟩
  | .lsetCmd => ⟨cmdWriteFlag, 4, 1, 1, 1⟩
  | .ltrimCmd => ⟨cmdWriteFlag, 4, 1, 1, 1⟩
  | .rpopCmd => ⟨cmdWriteFlag, 2, 1, 1, 1⟩
  | .rpoplpushCmd => ⟨cmdWriteFlag, 3, 1, 2, 1⟩
  | .rpushCmd => ⟨cmdWriteFlag, -3, 1, 1, 1⟩
  | .rpushxCmd => ⟨cmdWriteFlag, -3, 1, 1, 1⟩
  | .happendCmd => ⟨cmdWriteFlag, -4, 1, 1, 1⟩
  | .hdelCmd => ⟨cmdWriteFlag, -3, 1, 1, 1⟩
  | .hexistsCmd => ⟨cmdReadFlag, 3, 1, 1, 1⟩
  | .hgetCmd => ⟨cmdReadFlag, 3, 1, 1, 1⟩
  | .hgetallCmd => ⟨cmdReadFlag, 2, 1, 1, 1⟩
  | .hincrbyCmd => ⟨cmdWriteFlag, 4, 1, 1, 1⟩
  | .hincrbyfloatCmd => ⟨cmdWriteFlag, 4, 1, 1, 1⟩
  | .hkeysCmd => ⟨cmdReadFlag, 2, 1, 1, 1⟩
  | .hlenCmd => ⟨cmdReadFlag, 2, 1, 1, 1⟩
  | .hmgetCmd => ⟨cmdReadFlag, -3, 1, 1, 1⟩
  | .hmsetCmd => ⟨cmdWriteFlag, -4, 1, 1, 1⟩
  | .hsetCmd => ⟨cmdWriteFlag, -4, 1, 1, 1⟩
  | .hsetnxCmd => ⟨cmdWriteFlag, 4, 1, 1, 1⟩
  | .hstrlenCmd => ⟨cmdReadFlag, 3, 1, 1, 1⟩
  | .hvalsCmd => ⟨cmdReadFlag, 2, 1, 1, 1⟩
  | .hscanCmd => ⟨cmdReadFlag, -3, 1, 1, 1⟩
  | .saddCmd => ⟨cmdWriteFlag, -3, 1, 1, 1⟩
  | .scardCmd => ⟨cmdReadFlag, 2, 1, 1, 1⟩
  | .sdiffCmd => ⟨cmdReadFlag, -2, 1, -1, 1⟩
  | .sdiffstoreCmd => ⟨cmdWriteFlag, -3, 1, -1, 1⟩
  | .sinterCmd => ⟨cmdReadFlag, -2, 1, -1, 1⟩
  | .sinterstoreCmd => ⟨cmdWriteFlag, -3, 1, -1, 1⟩
  | .sismemberCmd => ⟨cmdReadFlag, 3, 1, 1, 1⟩
  | .smembersCmd => ⟨cmdReadFlag, 2, 1, 1, 1⟩
  | .smoveCmd => ⟨cmdWriteFlag, 4, 1, 2, 1⟩
  | .spopCmd => ⟨cmdWriteFlag, -2, 1, 1, 1⟩
  | .srandmemberCmd => ⟨cmdReadFlag, -2, 1, 1, 1⟩
  | .sremCmd => ⟨cmdWriteFlag, -3, 1, 1, 1⟩
  | .sunionCmd => ⟨cmdReadFlag, -2, 1, -1, 1⟩
  | .sunionstoreCmd => ⟨cmdWriteFlag, -3, 1, -1, 1⟩
  | .sscanCmd => ⟨cmdReadFlag, -3, 1, 1, 1⟩
  | .zaddCmd => ⟨cmdWriteFlag, -4, 1, 1, 1⟩
  | .zcardCmd => ⟨cmdReadFlag, 2, 1, 1, 1⟩
  | .zcountCmd => ⟨cmdReadFlag, 4, 1, 1, 1⟩
  | .zincrbyCmd => ⟨cmdWriteFlag, 4, 1, 1, 1⟩
  | .zinterstoreCmd => ⟨cmdWriteMvFlag, -4, 1, 1, 1⟩
  | .zlexcountCmd => ⟨cmdReadFlag, 4, 1, 1, 1⟩
  | .zrangeCmd => ⟨cmdReadFlag, -4, 1, 1, 1⟩
  | .zrangebylexCmd => ⟨cmdReadFlag, -4, 1, 1, 1⟩
  | .zrevrangebylexCmd => ⟨cmdReadFlag, -4, 1, 1, 1⟩
  | .zrangebyscoreCmd => ⟨cmdReadFlag, -4, 1, 1, 1⟩
  | .zrankCmd => ⟨cmdReadFlag, 3, 1, 1, 1⟩
  | .zremCmd => ⟨cmdWriteFlag, -3, 1, 1, 1⟩
  | .zremrangebylexCmd => ⟨cmdWriteFlag, 4, 1, 1, 1⟩
  | .zremrangebyrankCmd => ⟨cmdWriteFlag, 4, 1, 1, 1⟩
  | .zremrangebyscoreCmd => ⟨cmdWriteFlag, 4, 1, 1, 1⟩
  | .zrevrangeCmd => ⟨cmdReadFlag, -4, 1, 1, 1⟩
  | .zrevrangebyscoreCmd => ⟨cmdReadFlag, -4, 1, 1, 1⟩
  | .zrevrankCmd => ⟨cmdReadFlag, 3, 1, 1, 1⟩
  | .zscoreCmd => ⟨cmdReadFlag, 3, 1, 1, 1⟩
  | .zunionstoreCmd => ⟨cmdWriteMvFlag, -4, 1, 1, 1⟩
  | .zscanCmd => ⟨cmdReadFlag, -3, 1, 1, 1⟩
  | .zpopminCmd => ⟨cmdWriteFlag, -2, 1, 1, 1⟩
  | .zpopmaxCmd => ⟨cmdWriteFlag, -2, 1, 1, 1⟩
  | .bzpopminCmd => ⟨cmdWriteFlag, -3, 1, -2, 1⟩
  | .bzpopmaxCmd => ⟨cmdWriteFlag, -3, 1, -2, 1⟩
  | .geoaddCmd => ⟨cmdWriteFlag, -5, 1, 1, 1⟩
  | .geohashCmd => ⟨cmdReadFlag, -2, 1, 1, 1⟩
  | .geoposCmd => ⟨cmdReadFlag, -2, 1, 1, 1⟩
  | .geodistCmd => ⟨cmdReadFlag, -4, 1, 1, 1⟩
  | .georadiusCmd => ⟨cmdWriteMvFlag, -6, 1, 1, 1⟩
  | .georadiusbymemberCmd => ⟨cmdWriteMvFlag, -5, 1, 1, 1⟩
  | .pfaddCmd => ⟨cmdWriteFlag, -2, 1, 1, 1⟩
  | .pfcountCmd => ⟨cmdReadFlag, -2, 1, -1, 1⟩
  | .pfmergeCmd => ⟨cmdWriteFlag, -2, 1, -1, 1⟩
  | .psubscribeCmd => ⟨cmdNoFlags, -2, 0, 0, 0⟩
  | .pubsubCmd => ⟨cmdNoFlags, -2, 0, 0, 0⟩
  | .publishCmd => ⟨cmdNoFlags, 3, 0, 0, 0⟩
  | .punsubscribeCmd => ⟨cmdNoFlags, -1, 0, 0, 0⟩
  | .subscribeCmd => ⟨cmdNoFlags, -2, 0, 0, 0⟩
  | .unsubscribeCmd => ⟨cmdNoFlags, -1, 0, 0, 0⟩
  | .discardCmd => ⟨cmdNoFlags, 1, 0, 0, 0⟩
  | .execCmd => ⟨cmdNoFlags, 1, 0, 0, 0⟩
  | .multiCmd => ⟨cmdNoFlags, 1, 0, 0, 0⟩
  | .unwatchCmd => ⟨cmdNoFlags, 1, 0, 0, 0⟩
  | .watchCmd => ⟨cmdReadFlag, -2, 1, -1, 1⟩
  | .xinfoCmd => ⟨cmdReadFlag, -2, 2, 2, 1⟩
  | .xaddCmd => ⟨cmdWriteFlag, -5, 1, 1, 1⟩
  | .xtrimCmd => ⟨cmdWriteFlag, -2, 1, 1, 1⟩
  | .xdelCmd => ⟨cmdWriteFlag, -2, 1, 1, 1⟩
  | .xrangeCmd => ⟨cmdReadFlag, -4, 1, 1, 1⟩
  | .xrevrangeCmd => ⟨cmdReadFlag, -4, 1, 1, 1⟩
  | .xlenCmd => ⟨cmdReadFlag, 2, 1, 1, 1⟩
  | .xreadCmd => ⟨cmdReadMvFlag, -3, 1, 1, 1⟩
  | .xgroupCmd => ⟨cmdWriteFlag, -2, 2, 2, 1⟩
  | .xreadgroupCmd => ⟨cmdWriteMvFlag, -3, 1, 1, 1⟩
  | .xackCmd => ⟨cmdWriteFlag, -4, 1, 1, 1⟩
  | .xclaimCmd => ⟨cmdWriteFlag, -5, 1, 1, 1⟩
  | .xpendingCmd => ⟨cmdReadFlag, -3, 1, 1, 1⟩
  | .xsetidCmd => ⟨cmdWriteFlag, 4, 1, 1, 1⟩

end Raids
