import Raids.Construction.Cmd.KeyGeometry
import Raids.Construction.Msg.Pack
import Raids.Library.Block
import Raids.Library.Endian

namespace Raids.Pubsub

/-- The encodings of a message: a text, a message of this protocol, and others. -/
inductive MsgEnc where
  | mdString
  | mdMessage
  | other
  deriving DecidableEq, Repr

/-- A publication. -/
structure EvPublish where
  subject : Bytes
  msg : Bytes
  msgEnc : MsgEnc

/-- The message that is sent, and whether it is one of this protocol already. -/
structure RedisMsgTransform where
  msg : Bytes
  isRedis : Bool := false
  deriving DecidableEq, Repr

/-- The characters that messages of this protocol start with. -/
def validTypeChar (b : UInt8) : Bool :=
  b = StringType.char .bulkString || b = arrayChar || b = StringType.char .simpleString ||
    b = StringType.char .errorString || b = integerChar

/-- A message of an encoding that is known is converted to JSON. -/
def checkTransform (transform : Bytes → Option Bytes) (pub : EvPublish) : RedisMsgTransform :=
  match pub.msg with
  | [] => { msg := [] }
  | b :: msg =>
      if pub.msgEnc = .mdString then { msg := b :: msg }
      else if pub.msgEnc = .mdMessage ∧ validTypeChar b then { msg := b :: msg, isRedis := true }
      else { msg := (transform (b :: msg)).getD (b :: msg) }

/-- A string with its length is written from an offset on, and the offset behind it. -/
def putString (msg : Block UInt8) (off : Nat) (str : Bytes) : Block UInt8 × Nat :=
  let digits := uint64ToString str.length
  let msg := msg.copy off [StringType.char .bulkString]
  let off := off + 1
  let msg := msg.copy off digits
  let off := off + digits.length
  let msg := msg.copy off crlf
  let off := off + 2
  let msg := msg.copy off str
  let msg := msg.copy (off + str.length) crlf
  (msg, off + str.length + 2)

/-- The bytes of a string with its length. -/
def stringSize (str : Bytes) : Nat := 1 + uint64Digits str.length + 2 + str.length + 2

/-- The bytes of the message. Only a text has a frame. -/
def RedisMsgTransform.size (xf : RedisMsgTransform) : Nat :=
  (if xf.isRedis then 0 else 1 + uint64Digits xf.msg.length + 2 + 2) + xf.msg.length

/-- The message is the last element. -/
def putMsg (xf : RedisMsgTransform) (msg : Block UInt8) (off : Nat) : Block UInt8 :=
  if xf.isRedis then msg.copy off xf.msg else (putString msg off xf.msg).1

def hdr : Bytes := text "*3\r\n$7\r\nmessage\r\n"

def phdr : Bytes := text "*4\r\n$8\r\npmessage\r\n"

/-- The message of a subscription, or of a pattern. Nothing is written where the subject or the
pattern is shorter than the prefix. -/
def pubMessage (prefixLen : Nat) (pub : EvPublish) (xf : RedisMsgTransform) (m : Option Bytes) :
    Option (Block UInt8) :=
  if pub.subject.length < prefixLen then none
  else
    let sub := pub.subject.drop prefixLen
    match m with
    | none =>
        let msg := Block.alloc (hdr.length + stringSize sub + xf.size)
        let msg := msg.copy 0 hdr
        let (msg, off) := putString msg hdr.length sub
        some (putMsg xf msg off)
    | some value =>
        if value.length < prefixLen then none
        else
          let pat := value.drop prefixLen
          let msg := Block.alloc (phdr.length + stringSize pat + stringSize sub + xf.size)
          let msg := msg.copy 0 phdr
          let (msg, off) := putString msg phdr.length pat
          let (msg, off) := putString msg off sub
          some (putMsg xf msg off)

/-- The library that writes bytes as text and reads them back, and the longest text of eight
bytes. -/
structure Base64 where
  binToBase64 : Bytes → Bytes
  base64ToBin : Bytes → Bytes
  size8 : Nat

/-- What the library documents of the text of up to eight bytes: it is read back, and it has no
dot. -/
structure Base64.Works (base64 : Base64) (id : Bytes) : Prop where
  reads : base64.base64ToBin (base64.binToBase64 id) = id
  noDot : (46 : UInt8) ∉ base64.binToBase64 id
  short : (base64.binToBase64 id).length ≤ base64.size8

/-- The low bytes of a number, until the rest is zero. -/
def idBytes : Nat → Nat → Bytes
  | 0, _ => []
  | left + 1, k => if k = 0 then [] else k.toUInt8 :: idBytes left (k / 256)

/-- The bytes of the hash and the number of a subscription. -/
def inboxId (h ibxId : Nat) : Bytes := LittleEndian.digits 4 h ++ idBytes 4 ibxId

/-- The inbox of a subscription names its hash and its number. -/
def inboxSubject (base64 : Base64) (pref session : Bytes) (h ibxId : Nat) : Bytes :=
  pref ++ text "_INBOX." ++ session ++ [46] ++
    base64.binToBase64 (inboxId h ibxId)

/-- The bytes behind the last dot. -/
def lastToken (sub : Bytes) : Bytes := (sub.reverse.takeWhile (· ≠ 46)).reverse

/-- The hash and the number of a subscription in the subject of a reply. -/
def inboxToken (base64 : Base64) (sub : Bytes) : Option (Nat × Nat) :=
  let token := lastToken sub
  if token.length ≤ base64.size8 then
    let id := base64.base64ToBin token
    if 5 ≤ id.length then
      some (LittleEndian.value (id.take 4), LittleEndian.value (id.drop 4))
    else none
  else none

end Raids.Pubsub
