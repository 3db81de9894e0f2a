import Raids.Construction.Msg.Number

namespace Raids

/-- Each line ends with these two bytes. -/
def crlf : Bytes := [cr, lf]

/-- The bytes are written one after the other, so their number is the returned offset. -/
def RedisMsg.pack : RedisMsg → Bytes
  | .string .bulkString len strval =>
      StringType.char .bulkString :: int64ToString len ++
        (if 0 ≤ len then crlf ++ strval.take len.toNat else []) ++ crlf
  | .string type len strval => type.char :: strval.take len.toNat ++ crlf
  | .integer ival => integerChar :: int64ToString ival ++ crlf
  | .array len elems => arrayChar :: int64ToString len ++ crlf ++ packArray len.toNat elems
where
  /-- The loop packs the first `k` elements. -/
  packArray : Nat → List RedisMsg → Bytes
    | k + 1, m :: ms => m.pack ++ packArray k ms
    | _, _ => []

/-- The size counts digits instead of writing them. -/
def RedisMsg.packSize : RedisMsg → Nat
  | .string .bulkString len _ =>
      1 + int64Digits len + (if 0 ≤ len then 2 + len.toNat else 0) + 2
  | .string _ len _ => 1 + len.toNat + 2
  | .integer ival => 1 + int64Digits ival + 2
  | .array len elems => 1 + int64Digits len + 2 + packSizeArray len.toNat elems
where
  packSizeArray : Nat → List RedisMsg → Nat
    | k + 1, m :: ms => m.packSize + packSizeArray k ms
    | _, _ => 0

/-- The bytes are written as far as the buffer of `buflen` bytes has room for the next piece. No
status stands for success, and the number that is returned is the one of the bytes. -/
def RedisMsg.pack2 : RedisMsg → Nat → Bytes × Option RedisMsgStatus
  | .string .bulkString len strval, buflen =>
      if buflen ≤ int64Digits len + 2 + len.toNat + 2 then ([], some .partialValue)
      else
        (StringType.char .bulkString :: int64ToString len ++
          (if 0 ≤ len then crlf ++ strval.take len.toNat else []) ++ crlf, none)
  | .string type len strval, buflen =>
      if buflen ≤ 1 + len.toNat + 2 then ([], some .partialValue)
      else (type.char :: strval.take len.toNat ++ crlf, none)
  | .integer ival, buflen =>
      if buflen ≤ int64Digits ival + 2 then ([], some .partialValue)
      else (integerChar :: int64ToString ival ++ crlf, none)
  | .array len elems, buflen =>
      if buflen ≤ int64Digits len + 2 + len.toNat + 2 then ([], some .partialValue)
      else
        let header := arrayChar :: int64ToString len ++ crlf
        let (bytes, status) := pack2Array len.toNat elems (buflen - header.length)
        (header ++ bytes, status)
where
  /-- The loop packs the first `k` elements and stops at the first one that does not fit. -/
  pack2Array : Nat → List RedisMsg → Nat → Bytes × Option RedisMsgStatus
    | k + 1, m :: ms, buflen =>
        match m.pack2 buflen with
        | (bytes, some status) => (bytes, some status)
        | (bytes, none) =>
            let (rest, status) := pack2Array k ms (buflen - bytes.length)
            (bytes ++ rest, status)
    | _, _, _ => ([], none)

end Raids
