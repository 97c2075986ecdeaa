/-
# The hole-punching wire format (`upunch/p2p_wire.c`)

Every message starts with a common header of 20 bytes (version, time to live, the
packet code and the flags packed into one big-endian word, the community name) and goes
on with one of five bodies.

* An encoder `encodeX base v` appends to `base`, the bytes `base[0 .. idx)` written so
  far, and returns what the source returns.
* A decoder `decodeX out base c` reads `base` at a cursor `c`, the pair of `idx` and the
  countdown `rem`.  When `rem` is too small it leaves `out` and the cursor alone and
  returns 0; none of the callers looks at that.  A read of `base` past its last byte and
  a copy larger than the field it goes to are faults.
* `decode_sock` tests a local that it has not set when the datagram ends before it; the
  value found there is the parameter `junk`.

The main result is `wire_round_trip`.
-/
import Mathlib.Tactic

namespace Zevent.Upunch

/-! ## The records -/

/-- An array of `n` bytes inside a record. -/
abbrev Bytes (n : ℕ) := Fin n → UInt8

/-- `P2P_PKT_VERSION`. -/
def pktVersion : UInt8 := 2

/-- `P2P_FLAGS_TYPE_MASK`. -/
def flagsTypeMask : UInt16 := 0x001f

/-- `P2P_FLAGS_BITS_MASK`. -/
def flagsBitsMask : UInt16 := 0xffe0

/-- `P2P_FLAGS_SOCKET`. -/
def flagsSocket : UInt16 := 0x0040

/-- `AF_INET`. -/
def afInet : UInt8 := 2

/-- `AF_INET6`. -/
def afInet6 : UInt8 := 10

/-- `p2p_sock_t`.  `addr.v4` is the first four bytes of the union. -/
structure Sock where
  family : UInt8
  port : UInt16
  addr : Bytes 16
  deriving DecidableEq

/-- `memset(sock, 0, sizeof(p2p_sock_t))`. -/
def Sock.zero : Sock where
  family := 0
  port := 0
  addr := fun _ => 0

/-- `p2p_common_t`. -/
structure Common where
  ttl : UInt8
  pc : UInt32
  flags : UInt16
  community : Bytes 16
  deriving DecidableEq

/-- `p2p_auth_t`. -/
structure Auth where
  scheme : UInt16
  toksize : UInt16
  token : Bytes 32
  deriving DecidableEq

def Auth.zero : Auth where
  scheme := 0
  toksize := 0
  token := fun _ => 0

/-- `p2p_REGISTER_t`. -/
structure Register where
  cookie : Bytes 4
  origSender : Sock
  destSock : Sock
  deriving DecidableEq

/-- `p2p_REGISTER_SUPER_t`. -/
structure RegisterSuper where
  cookie : Bytes 4
  auth : Auth
  deriving DecidableEq

/-- `p2p_REGISTER_ACK_t`. -/
structure RegisterAck where
  cookie : Bytes 4
  sock : Sock
  deriving DecidableEq

/-- `p2p_REGISTER_SUPER_ACK_t`. -/
structure RegisterSuperAck where
  cookie : Bytes 4
  lifetime : UInt16
  sock : Sock
  numSn : UInt8
  snBak : Sock
  deriving DecidableEq

/-- `p2p_PACKET_t`. -/
structure Packet where
  sock : Sock
  deriving DecidableEq

/-! ## Encoders -/

def encodeUint8 (base : List UInt8) (v : UInt8) : List UInt8 × ℤ := (base ++ [v], 1)

def encodeUint16 (base : List UInt8) (v : UInt16) : List UInt8 × ℤ :=
  (base ++ [(v >>> 8).toUInt8, v.toUInt8], 2)

/-- `encode_buf(base, idx, p, s)`. -/
def encodeBuf {n : ℕ} (base : List UInt8) (p : Bytes n) : List UInt8 × ℤ :=
  (base ++ List.ofFn p, n)

/-- `encode_common`, which returns -1. -/
def encodeCommon (base : List UInt8) (common : Common) : List UInt8 × ℤ :=
  let (base, _) := encodeUint8 base pktVersion
  let (base, _) := encodeUint8 base common.ttl
  let flags := (common.pc &&& flagsTypeMask.toUInt32).toUInt16
  let flags := flags ||| (common.flags &&& flagsBitsMask)
  let (base, _) := encodeUint16 base flags
  let (base, _) := encodeBuf base common.community
  (base, -1)

/-- `sock->addr.v4`. -/
def v4 (addr : Bytes 16) : Bytes 4 := fun i => addr (i.castLE (by decide))

/-- `encode_sock`; nothing is written for another family. -/
def encodeSock (base : List UInt8) (sock : Sock) : List UInt8 × ℤ :=
  if sock.family = afInet then
    let (base, r₁) := encodeUint16 base 0
    let (base, r₂) := encodeUint16 base sock.port
    let (base, r₃) := encodeBuf base (v4 sock.addr)
    (base, r₁ + r₂ + r₃)
  else if sock.family = afInet6 then
    let (base, r₁) := encodeUint16 base 0x8000
    let (base, r₂) := encodeUint16 base sock.port
    let (base, r₃) := encodeBuf base sock.addr
    (base, r₁ + r₂ + r₃)
  else (base, -1)

def encodeRegister (base : List UInt8) (common : Common) (reg : Register) : List UInt8 × ℤ :=
  let (base, r₁) := encodeCommon base common
  let (base, r₂) := encodeBuf base reg.cookie
  let (base, r₃) := encodeSock base reg.origSender
  let (base, r₄) := encodeSock base reg.destSock
  (base, r₁ + r₂ + r₃ + r₄)

/-- `encode_REGISTER_SUPER`: the null scheme and no token, whatever `reg->auth` holds. -/
def encodeRegisterSuper (base : List UInt8) (common : Common) (reg : RegisterSuper) :
    List UInt8 × ℤ :=
  let (base, r₁) := encodeCommon base common
  let (base, r₂) := encodeBuf base reg.cookie
  let (base, r₃) := encodeUint16 base 0
  let (base, r₄) := encodeUint16 base 0
  (base, r₁ + r₂ + r₃ + r₄)

def encodeRegisterAck (base : List UInt8) (common : Common) (reg : RegisterAck) :
    List UInt8 × ℤ :=
  let (base, r₁) := encodeCommon base common
  let (base, r₂) := encodeBuf base reg.cookie
  if reg.sock.family ≠ 0 then
    let (base, r₃) := encodeSock base reg.sock
    (base, r₁ + r₂ + r₃)
  else (base, r₁ + r₂)

def encodeRegisterSuperAck (base : List UInt8) (common : Common) (reg : RegisterSuperAck) :
    List UInt8 × ℤ :=
  let (base, r₁) := encodeCommon base common
  let (base, r₂) := encodeBuf base reg.cookie
  let (base, r₃) := encodeUint16 base reg.lifetime
  let (base, r₄) := encodeSock base reg.sock
  let (base, r₅) := encodeUint8 base reg.numSn
  if reg.numSn > 0 then
    let (base, r₆) := encodeSock base reg.snBak
    (base, r₁ + r₂ + r₃ + r₄ + r₅ + r₆)
  else (base, r₁ + r₂ + r₃ + r₄ + r₅)

def encodePacket (base : List UInt8) (common : Common) (pkt : Packet) : List UInt8 × ℤ :=
  let (base, r₁) := encodeCommon base common
  if pkt.sock.family ≠ 0 then
    let (base, r₂) := encodeSock base pkt.sock
    (base, r₁ + r₂)
  else (base, r₁)

/-! ## Decoders -/

/-- What a decoder must not do: read past the datagram, write past a field. -/
inductive Fault where
  | readPast
  | writePast
  deriving DecidableEq

/-- `idx` and `rem`. -/
structure Cursor where
  idx : ℕ
  rem : ℕ
  deriving DecidableEq

/-- `*idx += n; *rem -= n`. -/
def Cursor.advance (c : Cursor) (n : ℕ) : Cursor where
  idx := c.idx + n
  rem := c.rem - n

/-- `base[i]`. -/
def byteAt (base : List UInt8) (i : ℕ) : Except Fault UInt8 :=
  match base[i]? with
  | some b => .ok b
  | none => .error .readPast

def decodeUint8 (out : UInt8) (base : List UInt8) (c : Cursor) :
    Except Fault (UInt8 × ℕ × Cursor) :=
  if c.rem < 1 then .ok (out, 0, c)
  else do
    let b ← byteAt base c.idx
    .ok (b, 1, c.advance 1)

def decodeUint16 (out : UInt16) (base : List UInt8) (c : Cursor) :
    Except Fault (UInt16 × ℕ × Cursor) :=
  if c.rem < 2 then .ok (out, 0, c)
  else do
    let hi ← byteAt base c.idx
    let lo ← byteAt base (1 + c.idx)
    .ok (hi.toUInt16 <<< 8 ||| lo.toUInt16, 2, c.advance 2)

/-- The effect of a `memcpy` on the field it goes to. -/
def overwrite {n : ℕ} (out : Bytes n) (bytes : List UInt8) : Bytes n :=
  fun i => bytes.getD i (out i)

/-- `decode_buf(out, bufsize, base, rem, idx)` for a field `out` of `n` bytes. -/
def decodeBuf {n : ℕ} (out : Bytes n) (bufsize : ℕ) (base : List UInt8) (c : Cursor) :
    Except Fault (Bytes n × ℕ × Cursor) :=
  if c.rem < bufsize then .ok (out, 0, c)
  else if base.length < c.idx + bufsize then .error .readPast
  else if n < bufsize then .error .writePast
  else .ok (overwrite out ((base.drop c.idx).take bufsize), bufsize, c.advance bufsize)

/-- `decode_common`; `out` is what the caller's record held before. -/
def decodeCommon (out : Common) (base : List UInt8) (c : Cursor) :
    Except Fault (Common × ℤ × Cursor) := do
  let (dummy, _, c₁) ← decodeUint8 0 base c
  if dummy ≠ pktVersion then .ok (out, -1, c₁)
  else do
    let (ttl, _, c₂) ← decodeUint8 out.ttl base c₁
    let (flags, _, c₃) ← decodeUint16 out.flags base c₂
    let pc := (flags &&& flagsTypeMask).toUInt32
    let flags := flags &&& flagsBitsMask
    let (community, _, c₄) ← decodeBuf out.community 16 base c₃
    .ok ({ ttl, pc, flags, community }, (c₄.idx : ℤ) - c.idx, c₄)

/-- Store a `v4` view back into the union. -/
def setV4 (addr : Bytes 16) (v : Bytes 4) : Bytes 16 := overwrite addr (List.ofFn v)

/-- `decode_sock`.  Its result is the difference of two copies of one pointer. -/
def decodeSock (junk : UInt16) (sock : Sock) (base : List UInt8) (c : Cursor) :
    Except Fault (Sock × ℕ × Cursor) := do
  let (f, _, c₁) ← decodeUint16 junk base c
  if f &&& 0x8000 ≠ 0 then do
    let (port, _, c₂) ← decodeUint16 sock.port base c₁
    let (addr, _, c₃) ← decodeBuf sock.addr 16 base c₂
    .ok ({ family := afInet6, port, addr }, 0, c₃)
  else do
    let (port, _, c₂) ← decodeUint16 sock.port base c₁
    let cleared : Bytes 16 := fun _ => 0
    let (v, _, c₃) ← decodeBuf (v4 cleared) 4 base c₂
    .ok ({ family := afInet, port, addr := setV4 cleared v }, 0, c₃)

/-- `decode_REGISTER`.  The two calls of `decode_sock` find `junk 0` and `junk 1`. -/
def decodeRegister (junk : ℕ → UInt16) (base : List UInt8) (c : Cursor) :
    Except Fault (Register × ℕ × Cursor) := do
  let (cookie, r₁, c₁) ← decodeBuf (fun _ => 0 : Bytes 4) 4 base c
  let (origSender, r₂, c₂) ← decodeSock (junk 0) Sock.zero base c₁
  let (destSock, r₃, c₃) ← decodeSock (junk 1) Sock.zero base c₂
  .ok ({ cookie, origSender, destSock }, r₁ + r₂ + r₃, c₃)

def decodeRegisterSuper (base : List UInt8) (c : Cursor) :
    Except Fault (RegisterSuper × ℕ × Cursor) := do
  let (cookie, r₁, c₁) ← decodeBuf (fun _ => 0 : Bytes 4) 4 base c
  let (scheme, r₂, c₂) ← decodeUint16 0 base c₁
  let (toksize, r₃, c₃) ← decodeUint16 0 base c₂
  -- the size the sender asked for, not the size of the field
  let (token, r₄, c₄) ← decodeBuf (fun _ => 0 : Bytes 32) toksize.toNat base c₃
  .ok ({ cookie, auth := { scheme, toksize, token } }, r₁ + r₂ + r₃ + r₄, c₄)

def decodeRegisterAck (junk : ℕ → UInt16) (cmn : Common) (base : List UInt8) (c : Cursor) :
    Except Fault (RegisterAck × ℕ × Cursor) := do
  let (cookie, r₁, c₁) ← decodeBuf (fun _ => 0 : Bytes 4) 4 base c
  if cmn.flags &&& flagsSocket ≠ 0 then do
    let (sock, r₂, c₂) ← decodeSock (junk 0) Sock.zero base c₁
    .ok ({ cookie, sock }, r₁ + r₂, c₂)
  else .ok ({ cookie, sock := Sock.zero }, r₁, c₁)

def decodeRegisterSuperAck (junk : ℕ → UInt16) (base : List UInt8) (c : Cursor) :
    Except Fault (RegisterSuperAck × ℕ × Cursor) := do
  let (cookie, r₁, c₁) ← decodeBuf (fun _ => 0 : Bytes 4) 4 base c
  let (lifetime, r₂, c₂) ← decodeUint16 0 base c₁
  let (sock, r₃, c₃) ← decodeSock (junk 0) Sock.zero base c₂
  let (numSn, r₄, c₄) ← decodeUint8 0 base c₃
  if numSn > 0 then do
    let (snBak, r₅, c₅) ← decodeSock (junk 1) Sock.zero base c₄
    .ok ({ cookie, lifetime, sock, numSn, snBak }, r₁ + r₂ + r₃ + r₄ + r₅, c₅)
  else .ok ({ cookie, lifetime, sock, numSn, snBak := Sock.zero }, r₁ + r₂ + r₃ + r₄, c₄)

def decodePacket (junk : ℕ → UInt16) (cmn : Common) (base : List UInt8) (c : Cursor) :
    Except Fault (Packet × ℕ × Cursor) := do
  if cmn.flags &&& flagsSocket ≠ 0 then do
    let (sock, r₁, c₁) ← decodeSock (junk 0) Sock.zero base c
    .ok ({ sock }, r₁, c₁)
  else .ok ({ sock := Sock.zero }, 0, c)

/-! ## What a cursor has in front of it -/

/-- `rest` is what is left of the datagram, and `rem` counts it. -/
structure Remains (base : List UInt8) (c : Cursor) (rest : List UInt8) : Prop where
  inside : c.idx ≤ base.length
  drop : base.drop c.idx = rest
  rem : c.rem = rest.length

theorem ok_bind {α β : Type} (x : α) (f : α → Except Fault β) :
    (Except.ok x >>= f) = f x := rfl

@[simp] theorem Cursor.advance_advance (c : Cursor) (m n : ℕ) :
    (c.advance m).advance n = c.advance (m + n) := by
  rw [advance, advance, advance, Cursor.mk.injEq]
  exact ⟨Nat.add_assoc _ _ _, Nat.sub_sub _ _ _⟩

theorem Remains.length {base rest : List UInt8} {c : Cursor} (h : Remains base c rest) :
    c.idx + rest.length = base.length := by
  rw [← h.drop, List.length_drop]
  exact Nat.add_sub_cancel' h.inside

/-- Moving the cursor drops bytes from what remains. -/
theorem Remains.advance {base rest : List UInt8} {c : Cursor} (h : Remains base c rest)
    {n : ℕ} (hn : n ≤ rest.length) : Remains base (c.advance n) (rest.drop n) where
  inside := by
    have hlen := h.length
    show c.idx + n ≤ base.length
    omega
  drop := by
    rw [Cursor.advance, ← List.drop_drop, h.drop]
  rem := by
    rw [Cursor.advance, List.length_drop, h.rem]

/-- Moving the cursor over bytes leaves those behind them. -/
theorem Remains.advance_append {base bytes rest : List UInt8} {c : Cursor}
    (h : Remains base c (bytes ++ rest)) : Remains base (c.advance bytes.length) rest := by
  have hn : bytes.length ≤ (bytes ++ rest).length := by
    rw [List.length_append]
    exact Nat.le_add_right _ _
  have hadv := h.advance hn
  rwa [List.drop_left] at hadv

/-- Bytes the countdown still covers are inside the datagram. -/
theorem Remains.byteAt {base rest : List UInt8} {c : Cursor} (h : Remains base c rest)
    {i : ℕ} {b : UInt8} (hb : rest[i]? = some b) :
    Upunch.byteAt base (c.idx + i) = .ok b := by
  rw [← h.drop, List.getElem?_drop] at hb
  rw [Upunch.byteAt, hb]

/-- A byte is read when there is one. -/
theorem decodeUint8_cons {base rest : List UInt8} {c : Cursor} {b : UInt8}
    (h : Remains base c (b :: rest)) (out : UInt8) :
    decodeUint8 out base c = .ok (b, 1, c.advance 1) := by
  have hrem := h.rem
  rw [List.length_cons] at hrem
  rw [decodeUint8, if_neg (by omega)]
  have hb := h.byteAt (show (b :: rest)[0]? = some b from rfl)
  rw [Nat.add_zero] at hb
  rw [hb, ok_bind]

theorem decodeUint8_nil {base : List UInt8} {c : Cursor} (h : Remains base c [])
    (out : UInt8) : decodeUint8 out base c = .ok (out, 0, c) := by
  rw [decodeUint8, if_pos (by rw [h.rem]; exact Nat.one_pos)]

/-- A word is two bytes, the higher one first. -/
theorem decodeUint16_cons {base rest : List UInt8} {c : Cursor} {hi lo : UInt8}
    (h : Remains base c (hi :: lo :: rest)) (out : UInt16) :
    decodeUint16 out base c = .ok (hi.toUInt16 <<< 8 ||| lo.toUInt16, 2, c.advance 2) := by
  have hrem := h.rem
  rw [List.length_cons, List.length_cons] at hrem
  rw [decodeUint16, if_neg (by omega)]
  have hhi := h.byteAt (show (hi :: lo :: rest)[0]? = some hi from rfl)
  have hlo := h.byteAt (show (hi :: lo :: rest)[1]? = some lo from rfl)
  rw [Nat.add_zero] at hhi
  rw [Nat.add_comm] at hlo
  rw [hhi, ok_bind, hlo, ok_bind]

theorem decodeUint16_short {base rest : List UInt8} {c : Cursor} (h : Remains base c rest)
    (hlen : rest.length < 2) (out : UInt16) :
    decodeUint16 out base c = .ok (out, 0, c) := by
  rw [decodeUint16, if_pos (by rw [h.rem]; exact hlen)]

/-- A field with bytes missing is not read. -/
theorem decodeBuf_short {n : ℕ} {base rest : List UInt8} {c : Cursor}
    (h : Remains base c rest) {bufsize : ℕ} (hlen : rest.length < bufsize) (out : Bytes n) :
    decodeBuf out bufsize base c = .ok (out, 0, c) := by
  rw [decodeBuf, if_pos (by rw [h.rem]; exact hlen)]

/-- A field is read whole when its bytes are there and the destination has room. -/
theorem decodeBuf_ok {n : ℕ} {base rest : List UInt8} {c : Cursor}
    (h : Remains base c rest) {bufsize : ℕ} (hlen : bufsize ≤ rest.length)
    (hfield : bufsize ≤ n) (out : Bytes n) :
    decodeBuf out bufsize base c
      = .ok (overwrite out (rest.take bufsize), bufsize, c.advance bufsize) := by
  rw [decodeBuf, if_neg (by rw [h.rem]; omega), h.drop]
  have hin := h.length
  rw [if_neg (by omega), if_neg (by omega)]

/-- A copy larger than its field. -/
theorem decodeBuf_writePast {n : ℕ} {base rest : List UInt8} {c : Cursor}
    (h : Remains base c rest) {bufsize : ℕ} (hlen : bufsize ≤ rest.length)
    (hfield : n < bufsize) (out : Bytes n) :
    decodeBuf out bufsize base c = .error .writePast := by
  have hin := h.length
  rw [decodeBuf, if_neg (by rw [h.rem]; omega), if_neg (by omega), if_pos hfield]

/-! ## What the encoders write -/

/-- The two bytes of `encode_uint16`. -/
def be16 (v : UInt16) : List UInt8 := [(v >>> 8).toUInt8, v.toUInt8]

/-- Big-endian words survive the trip. -/
theorem be16_join (v : UInt16) :
    (v >>> 8).toUInt8.toUInt16 <<< 8 ||| v.toUInt8.toUInt16 = v := by
  apply UInt16.toNat_inj.mp
  have hv : v.toNat < 65536 := v.toNat_lt
  simp only [UInt16.toNat_or, UInt16.toNat_shiftLeft, UInt8.toNat_toUInt16,
    UInt16.toNat_toUInt8, UInt16.toNat_shiftRight]
  have h8 : (8 : UInt16).toNat % 16 = 8 := by decide
  rw [h8, Nat.shiftRight_eq_div_pow]
  have hmod : v.toNat / 2 ^ 8 % 2 ^ 8 = v.toNat / 2 ^ 8 := by omega
  rw [hmod, Nat.mod_eq_of_lt (by rw [Nat.shiftLeft_eq]; omega),
    ← Nat.shiftLeft_add_eq_or_of_lt (by omega), Nat.shiftLeft_eq]
  omega

/-- A word that was written is read back. -/
theorem decodeUint16_be16 {base rest : List UInt8} {c : Cursor} {v : UInt16}
    (h : Remains base c (be16 v ++ rest)) (out : UInt16) :
    decodeUint16 out base c = .ok (v, 2, c.advance 2) := by
  rw [decodeUint16_cons h, be16_join]

theorem getD_ofFn {n : ℕ} (p : Bytes n) (i : ℕ) (d : UInt8) :
    (List.ofFn p).getD i d = if h : i < n then p ⟨i, h⟩ else d := by
  rw [List.getD_eq_getElem?_getD, List.getElem?_ofFn]
  split_ifs <;> rfl

/-- A field is overwritten by as many bytes as it has. -/
theorem overwrite_ofFn {n : ℕ} (out p : Bytes n) : overwrite out (List.ofFn p) = p := by
  funext i
  rw [overwrite, getD_ofFn, dif_pos i.isLt]

/-- A field that was written is read back. -/
theorem decodeBuf_ofFn {n : ℕ} {base rest : List UInt8} {c : Cursor} {p : Bytes n}
    (h : Remains base c (List.ofFn p ++ rest)) (out : Bytes n) :
    decodeBuf out n base c = .ok (p, n, c.advance n) := by
  have hlen : (List.ofFn p ++ rest).take n = List.ofFn p := List.take_left' List.length_ofFn
  rw [decodeBuf_ok h (by simp) le_rfl, hlen, overwrite_ofFn]

/-- The header as `encode_common` writes it. -/
def commonBytes (common : Common) : List UInt8 :=
  [pktVersion, common.ttl]
    ++ be16 ((common.pc &&& flagsTypeMask.toUInt32).toUInt16 ||| (common.flags &&& flagsBitsMask))
    ++ List.ofFn common.community

/-- A socket as `encode_sock` writes it. -/
def sockBytes (sock : Sock) : List UInt8 :=
  if sock.family = afInet then be16 0 ++ be16 sock.port ++ List.ofFn (v4 sock.addr)
  else if sock.family = afInet6 then be16 0x8000 ++ be16 sock.port ++ List.ofFn sock.addr
  else []

/-- The encoder of the common header appends its bytes. -/
theorem encodeCommon_fst (base : List UInt8) (common : Common) :
    (encodeCommon base common).1 = base ++ commonBytes common := by
  simp [encodeCommon, encodeUint8, encodeUint16, encodeBuf, commonBytes, be16]

theorem encodeSock_fst (base : List UInt8) (sock : Sock) :
    (encodeSock base sock).1 = base ++ sockBytes sock := by
  rw [encodeSock, sockBytes]
  split_ifs <;> simp [encodeUint16, encodeBuf, be16]

/-! ## Sockets and headers round-trip -/

/-- A socket the format carries: of one of the two families, with the bytes that
`AF_INET` does not use cleared. -/
def Sock.Carried (sock : Sock) : Prop :=
  (sock.family = afInet ∧ ∀ i : Fin 16, 4 ≤ i.val → sock.addr i = 0) ∨ sock.family = afInet6

/-- The packet code and the flags lie inside their masks. -/
def Common.Masked (common : Common) : Prop :=
  common.pc &&& flagsTypeMask.toUInt32 = common.pc ∧
    common.flags &&& flagsBitsMask = common.flags

/-- The IPv4 address is all of an address whose other bytes are zero. -/
theorem setV4_v4 {addr : Bytes 16} (h : ∀ i : Fin 16, 4 ≤ i.val → addr i = 0) :
    setV4 (fun _ => 0) (v4 addr) = addr := by
  funext i
  rw [setV4, overwrite, getD_ofFn]
  split_ifs with hi
  · rfl
  · exact (h i (by omega)).symm

/-- A socket that was written is read back. -/
theorem decodeSock_sockBytes {base rest : List UInt8} {c : Cursor} {sock : Sock}
    (hsock : sock.Carried) (h : Remains base c (sockBytes sock ++ rest)) (junk : UInt16)
    (out : Sock) :
    decodeSock junk out base c = .ok (sock, 0, c.advance (sockBytes sock).length) := by
  rcases hsock with ⟨hfam, hclear⟩ | hfam
  · have hbytes : sockBytes sock = be16 0 ++ (be16 sock.port ++ List.ofFn (v4 sock.addr)) := by
      rw [sockBytes, if_pos hfam, List.append_assoc]
    rw [hbytes, List.append_assoc, List.append_assoc] at h
    have h₁ : Remains base (c.advance 2) _ := h.advance_append
    have h₂ : Remains base ((c.advance 2).advance 2) _ := h₁.advance_append
    rw [decodeSock, decodeUint16_be16 h]
    simp only [ok_bind]
    rw [if_neg (by decide), decodeUint16_be16 h₁]
    simp only [ok_bind]
    rw [decodeBuf_ofFn h₂]
    simp only [ok_bind]
    rw [setV4_v4 hclear, ← hfam, hbytes]
    rfl
  · have hbytes : sockBytes sock = be16 0x8000 ++ (be16 sock.port ++ List.ofFn sock.addr) := by
      rw [sockBytes, if_neg (by rw [hfam]; decide), if_pos hfam, List.append_assoc]
    rw [hbytes, List.append_assoc, List.append_assoc] at h
    have h₁ : Remains base (c.advance 2) _ := h.advance_append
    have h₂ : Remains base ((c.advance 2).advance 2) _ := h₁.advance_append
    rw [decodeSock, decodeUint16_be16 h]
    simp only [ok_bind]
    rw [if_pos (by decide), decodeUint16_be16 h₁]
    simp only [ok_bind]
    rw [decodeBuf_ofFn h₂]
    simp only [ok_bind]
    rw [← hfam, hbytes]
    rfl

/-- The word in which `encode_common` packs the packet code and the flags. -/
def Common.packed (common : Common) : UInt16 :=
  (common.pc &&& flagsTypeMask.toUInt32).toUInt16 ||| (common.flags &&& flagsBitsMask)

theorem or_and_distrib (a b m : UInt16) : (a ||| b) &&& m = a &&& m ||| b &&& m := by
  apply UInt16.toBitVec_inj.mp
  simp only [UInt16.toBitVec_and, UInt16.toBitVec_or]
  exact BitVec.and_or_distrib_right

/-- The type is taken out of the word that it shares with the flags. -/
theorem packed_pc {common : Common} (h : common.Masked) :
    (common.packed &&& flagsTypeMask).toUInt32 = common.pc := by
  have hcross : common.flags &&& flagsBitsMask &&& flagsTypeMask = 0 := by
    rw [UInt16.and_assoc]
    exact UInt16.and_zero
  have hsame : (common.pc &&& flagsTypeMask.toUInt32).toUInt16 &&& flagsTypeMask
      = (common.pc &&& flagsTypeMask.toUInt32).toUInt16 := by
    rw [UInt32.toUInt16_and, UInt16.and_assoc]
    rfl
  have hsmall : (common.pc &&& flagsTypeMask.toUInt32).toNat < 2 ^ 16 := by
    rw [UInt32.toNat_and]
    exact lt_of_le_of_lt Nat.and_le_right (by decide)
  rw [Common.packed, or_and_distrib, hcross, UInt16.or_zero, hsame]
  conv_rhs => rw [← h.1]
  apply UInt32.toNat_inj.mp
  rw [UInt16.toNat_toUInt32, UInt32.toNat_toUInt16, Nat.mod_eq_of_lt hsmall]

theorem packed_flags {common : Common} (h : common.Masked) :
    common.packed &&& flagsBitsMask = common.flags := by
  have hcross : (common.pc &&& flagsTypeMask.toUInt32).toUInt16 &&& flagsBitsMask = 0 := by
    rw [UInt32.toUInt16_and, UInt16.and_assoc]
    exact UInt16.and_zero
  rw [Common.packed, or_and_distrib, hcross, UInt16.zero_or, h.2, h.2]

/-- A header that was written is read back. -/
theorem decodeCommon_commonBytes {base rest : List UInt8} {c : Cursor} {common : Common}
    (hmask : common.Masked) (h : Remains base c (commonBytes common ++ rest))
    (out : Common) :
    decodeCommon out base c = .ok (common, 20, c.advance 20) := by
  have hbytes : commonBytes common ++ rest
      = pktVersion :: common.ttl
        :: (be16 common.packed ++ (List.ofFn common.community ++ rest)) := by
    rw [commonBytes, List.append_assoc, List.append_assoc]
    rfl
  rw [hbytes] at h
  have h₁ : Remains base (c.advance 1) _ := h.advance (Nat.succ_le_succ (Nat.zero_le _))
  have h₂ : Remains base ((c.advance 1).advance 1) _ :=
    h₁.advance (Nat.succ_le_succ (Nat.zero_le _))
  have h₃ : Remains base (((c.advance 1).advance 1).advance 2) _ := h₂.advance_append
  rw [decodeCommon, decodeUint8_cons h]
  simp only [ok_bind]
  rw [if_neg (by simp), decodeUint8_cons h₁]
  simp only [ok_bind]
  rw [decodeUint16_be16 h₂]
  simp only [ok_bind]
  rw [decodeBuf_ofFn h₃]
  simp only [ok_bind]
  rw [packed_pc hmask, packed_flags hmask]
  have hret : (((((c.advance 1).advance 1).advance 2).advance 16).idx : ℤ) - c.idx = 20 := by
    simp only [Cursor.advance]
    omega
  rw [hret]
  simp only [Cursor.advance_advance]

/-! ## Messages -/

/-- The five bodies. -/
inductive Kind where
  | register
  | registerSuper
  | registerAck
  | registerSuperAck
  | packet
  deriving DecidableEq

/-- A body of one of the five kinds. -/
inductive Message where
  | register (reg : Register)
  | registerSuper (reg : RegisterSuper)
  | registerAck (reg : RegisterAck)
  | registerSuperAck (reg : RegisterSuperAck)
  | packet (pkt : Packet)
  deriving DecidableEq

def Message.kind : Message → Kind
  | .register _ => .register
  | .registerSuper _ => .registerSuper
  | .registerAck _ => .registerAck
  | .registerSuperAck _ => .registerSuperAck
  | .packet _ => .packet

/-- The encoder of a message. -/
def encodeMessage (base : List UInt8) (common : Common) : Message → List UInt8 × ℤ
  | .register reg => encodeRegister base common reg
  | .registerSuper reg => encodeRegisterSuper base common reg
  | .registerAck reg => encodeRegisterAck base common reg
  | .registerSuperAck reg => encodeRegisterSuperAck base common reg
  | .packet pkt => encodePacket base common pkt

/-- The body decoder of a kind of message. -/
def decodeBody (kind : Kind) (junk : ℕ → UInt16) (cmn : Common) (base : List UInt8)
    (c : Cursor) : Except Fault (Message × ℕ × Cursor) :=
  match kind with
  | .register => do
      let (reg, r, c) ← decodeRegister junk base c
      .ok (.register reg, r, c)
  | .registerSuper => do
      let (reg, r, c) ← decodeRegisterSuper base c
      .ok (.registerSuper reg, r, c)
  | .registerAck => do
      let (reg, r, c) ← decodeRegisterAck junk cmn base c
      .ok (.registerAck reg, r, c)
  | .registerSuperAck => do
      let (reg, r, c) ← decodeRegisterSuperAck junk base c
      .ok (.registerSuperAck reg, r, c)
  | .packet => do
      let (pkt, r, c) ← decodePacket junk cmn base c
      .ok (.packet pkt, r, c)

/-- What the format can carry: sockets of the two families, the null auth scheme with an
empty token, the `P2P_FLAGS_SOCKET` flag exactly when the optional socket has a family,
a backup supernode exactly when `num_sn` announces one. -/
def Message.Carried (common : Common) : Message → Prop
  | .register reg => reg.origSender.Carried ∧ reg.destSock.Carried
  | .registerSuper reg => reg.auth = Auth.zero
  | .registerAck reg =>
      (reg.sock.family ≠ 0 → reg.sock.Carried) ∧
        (common.flags &&& flagsSocket ≠ 0 ↔ reg.sock.family ≠ 0)
  | .registerSuperAck reg =>
      reg.sock.Carried ∧ (reg.numSn > 0 → reg.snBak.Carried) ∧
        (reg.numSn = 0 → reg.snBak = Sock.zero)
  | .packet pkt =>
      (pkt.sock.family ≠ 0 → pkt.sock.Carried) ∧
        (common.flags &&& flagsSocket ≠ 0 ↔ pkt.sock.family ≠ 0)

/-- A socket without a family is no socket: it arrives cleared. -/
def Sock.orZero (sock : Sock) : Sock := if sock.family = 0 then Sock.zero else sock

/-- The message with its optional socket cleared when there is none. -/
def Message.clearAbsent : Message → Message
  | .registerAck reg => .registerAck { reg with sock := reg.sock.orZero }
  | .packet pkt => .packet { pkt with sock := pkt.sock.orZero }
  | m => m

/-- An optional socket without a family is all zeros, as `memset` leaves it. -/
def Message.AbsentZero : Message → Prop
  | .registerAck reg => reg.sock.family = 0 → reg.sock = Sock.zero
  | .packet pkt => pkt.sock.family = 0 → pkt.sock = Sock.zero
  | _ => True

theorem Sock.orZero_eq_self {sock : Sock} (h : sock.family = 0 → sock = Sock.zero) :
    sock.orZero = sock := by
  unfold Sock.orZero
  split_ifs with hfam
  · exact (h hfam).symm
  · rfl

theorem Message.AbsentZero.clearAbsent_eq_self {m : Message} (h : m.AbsentZero) :
    m.clearAbsent = m := by
  cases m with
  | registerAck reg => rw [Message.clearAbsent, Sock.orZero_eq_self h]
  | packet pkt => rw [Message.clearAbsent, Sock.orZero_eq_self h]
  | register | registerSuper | registerSuperAck => rfl

/-- The body of a message as its encoder writes it after the header. -/
def Message.bytes : Message → List UInt8
  | .register reg =>
      List.ofFn reg.cookie ++ (sockBytes reg.origSender ++ sockBytes reg.destSock)
  | .registerSuper reg => List.ofFn reg.cookie ++ (be16 0 ++ be16 0)
  | .registerAck reg => List.ofFn reg.cookie ++ sockBytes reg.sock.orZero
  | .registerSuperAck reg =>
      List.ofFn reg.cookie ++ (be16 reg.lifetime ++ (sockBytes reg.sock
        ++ ([reg.numSn] ++ if reg.numSn > 0 then sockBytes reg.snBak else [])))
  | .packet pkt => sockBytes pkt.sock.orZero

theorem sockBytes_zero : sockBytes Sock.zero = [] := rfl

/-- Every encoder appends the header and then the body. -/
theorem encodeMessage_fst (base : List UInt8) (common : Common) (m : Message) :
    (encodeMessage base common m).1 = base ++ (commonBytes common ++ m.bytes) := by
  cases m with
  | register reg =>
      simp [encodeMessage, encodeRegister, Message.bytes, encodeCommon_fst, encodeSock_fst,
        encodeBuf]
  | registerSuper reg =>
      simp [encodeMessage, encodeRegisterSuper, Message.bytes, encodeCommon_fst, encodeBuf,
        encodeUint16, be16]
  | registerAck reg =>
      by_cases hfam : reg.sock.family = 0
      · simp [encodeMessage, encodeRegisterAck, Message.bytes, encodeCommon_fst, encodeBuf,
          Sock.orZero, hfam, sockBytes_zero]
      · simp [encodeMessage, encodeRegisterAck, Message.bytes, encodeCommon_fst, encodeBuf,
          Sock.orZero, hfam, encodeSock_fst]
  | registerSuperAck reg =>
      by_cases hsn : reg.numSn > 0
      · simp [encodeMessage, encodeRegisterSuperAck, Message.bytes, encodeCommon_fst,
          encodeBuf, encodeUint16, encodeUint8, encodeSock_fst, be16, hsn]
      · simp [encodeMessage, encodeRegisterSuperAck, Message.bytes, encodeCommon_fst,
          encodeBuf, encodeUint16, encodeUint8, encodeSock_fst, be16, hsn]
  | packet pkt =>
      by_cases hfam : pkt.sock.family = 0
      · simp [encodeMessage, encodePacket, Message.bytes, encodeCommon_fst, Sock.orZero, hfam,
          sockBytes_zero]
      · simp [encodeMessage, encodePacket, Message.bytes, encodeCommon_fst, Sock.orZero, hfam,
          encodeSock_fst]

/-- A REGISTER is read back. -/
theorem decodeRegister_bytes {base rest : List UInt8} {c : Cursor} {reg : Register}
    {common : Common} (hm : (Message.register reg).Carried common)
    (h : Remains base c ((Message.register reg).bytes ++ rest)) (junk : ℕ → UInt16) :
    decodeRegister junk base c
      = .ok (reg, 4, c.advance (Message.register reg).bytes.length) := by
  rw [Message.bytes, List.append_assoc, List.append_assoc] at h
  have h₁ : Remains base (c.advance 4) _ := h.advance_append
  have h₂ := h₁.advance_append
  rw [decodeRegister, decodeBuf_ofFn h]
  simp only [ok_bind]
  rw [decodeSock_sockBytes hm.1 h₁]
  simp only [ok_bind]
  rw [decodeSock_sockBytes hm.2 h₂]
  simp only [ok_bind, Cursor.advance_advance, Message.bytes, List.length_append,
    List.length_ofFn, Nat.add_assoc, Nat.add_zero]

/-- A REGISTER_SUPER is read back. -/
theorem decodeRegisterSuper_bytes {base rest : List UInt8} {c : Cursor} {reg : RegisterSuper}
    {common : Common} (hm : (Message.registerSuper reg).Carried common)
    (h : Remains base c ((Message.registerSuper reg).bytes ++ rest)) :
    decodeRegisterSuper base c
      = .ok (reg, 8, c.advance (Message.registerSuper reg).bytes.length) := by
  rw [Message.bytes, List.append_assoc, List.append_assoc] at h
  have h₁ : Remains base (c.advance 4) _ := h.advance_append
  have h₂ : Remains base ((c.advance 4).advance 2) _ := h₁.advance_append
  have h₃ : Remains base (((c.advance 4).advance 2).advance 2) rest := h₂.advance_append
  have hauth : reg.auth = Auth.zero := hm
  rw [decodeRegisterSuper, decodeBuf_ofFn h]
  simp only [ok_bind]
  rw [decodeUint16_be16 h₁]
  simp only [ok_bind]
  rw [decodeUint16_be16 h₂]
  simp only [ok_bind]
  rw [show (0 : UInt16).toNat = 0 from rfl, decodeBuf_ok h₃ (Nat.zero_le _) (Nat.zero_le _)]
  simp only [ok_bind]
  cases reg with
  | mk cookie auth =>
      rw [show auth = Auth.zero from hauth]
      simp only [Cursor.advance_advance, Message.bytes, List.length_append, List.length_ofFn]
      rfl

/-- The optional socket, when the flag announces it as it should. -/
theorem decodeSock_orZero {base rest : List UInt8} {c : Cursor} {sock : Sock}
    (hsock : sock.family ≠ 0 → sock.Carried)
    (h : Remains base c (sockBytes sock.orZero ++ rest)) (hfam : sock.family ≠ 0)
    (junk : UInt16) :
    decodeSock junk Sock.zero base c
      = .ok (sock.orZero, 0, c.advance (sockBytes sock.orZero).length) := by
  rw [Sock.orZero, if_neg hfam] at h ⊢
  exact decodeSock_sockBytes (hsock hfam) h junk _

/-- A REGISTER_ACK is read back, with zero for a socket that is absent. -/
theorem decodeRegisterAck_bytes {base rest : List UInt8} {c : Cursor} {reg : RegisterAck}
    {common : Common} (hm : (Message.registerAck reg).Carried common)
    (h : Remains base c ((Message.registerAck reg).bytes ++ rest)) (junk : ℕ → UInt16) :
    decodeRegisterAck junk common base c
      = .ok ({ reg with sock := reg.sock.orZero }, 4,
          c.advance (Message.registerAck reg).bytes.length) := by
  rw [Message.bytes, List.append_assoc] at h
  have h₁ : Remains base (c.advance 4) _ := h.advance_append
  rw [decodeRegisterAck, decodeBuf_ofFn h]
  simp only [ok_bind]
  by_cases hfam : reg.sock.family = 0
  · rw [if_neg (fun hflag => hm.2.mp hflag hfam)]
    simp only [Message.bytes, Sock.orZero, if_pos hfam, sockBytes_zero, List.append_nil,
      List.length_ofFn]
  · rw [if_pos (hm.2.mpr hfam), decodeSock_orZero hm.1 h₁ hfam]
    simp only [ok_bind, Cursor.advance_advance, Message.bytes, List.length_append,
      List.length_ofFn, Nat.add_zero]

theorem decodePacket_bytes {base rest : List UInt8} {c : Cursor} {pkt : Packet}
    {common : Common} (hm : (Message.packet pkt).Carried common)
    (h : Remains base c ((Message.packet pkt).bytes ++ rest)) (junk : ℕ → UInt16) :
    decodePacket junk common base c
      = .ok ({ pkt with sock := pkt.sock.orZero }, 0,
          c.advance (Message.packet pkt).bytes.length) := by
  rw [decodePacket]
  by_cases hfam : pkt.sock.family = 0
  · rw [if_neg (fun hflag => hm.2.mp hflag hfam)]
    simp only [Message.bytes, Sock.orZero, if_pos hfam, sockBytes_zero, List.length_nil]
    rfl
  · rw [if_pos (hm.2.mpr hfam), decodeSock_orZero hm.1 h hfam]
    rfl

/-- A REGISTER_SUPER_ACK is read back. -/
theorem decodeRegisterSuperAck_bytes {base rest : List UInt8} {c : Cursor}
    {reg : RegisterSuperAck} {common : Common}
    (hm : (Message.registerSuperAck reg).Carried common)
    (h : Remains base c ((Message.registerSuperAck reg).bytes ++ rest)) (junk : ℕ → UInt16) :
    decodeRegisterSuperAck junk base c
      = .ok (reg, 7, c.advance (Message.registerSuperAck reg).bytes.length) := by
  obtain ⟨hsock, hbak, hnone⟩ := hm
  simp only [Message.bytes, List.append_assoc] at h
  have h₁ : Remains base (c.advance 4) _ := h.advance_append
  have h₂ : Remains base ((c.advance 4).advance 2) _ := h₁.advance_append
  have h₃ := h₂.advance_append
  have h₄ : Remains base ((((c.advance 4).advance 2).advance _).advance 1) _ := h₃.advance_append
  rw [decodeRegisterSuperAck, decodeBuf_ofFn h]
  simp only [ok_bind]
  rw [decodeUint16_be16 h₁]
  simp only [ok_bind]
  rw [decodeSock_sockBytes hsock h₂]
  simp only [ok_bind]
  rw [decodeUint8_cons h₃]
  simp only [ok_bind]
  by_cases hsn : reg.numSn > 0
  · rw [if_pos hsn] at h₄ ⊢
    rw [decodeSock_sockBytes (hbak hsn) h₄]
    simp only [ok_bind, Cursor.advance_advance, Message.bytes, List.length_append,
      List.length_ofFn, Nat.add_assoc, if_pos hsn]
    rfl
  · have hzero : reg.numSn = 0 := by
      apply UInt8.toNat_inj.mp
      have : ¬ (0 : UInt8).toNat < reg.numSn.toNat := hsn
      simpa using this
    rw [if_neg hsn, ← hnone hzero]
    simp only [Cursor.advance_advance, Message.bytes, List.length_append,
      List.length_ofFn, Nat.add_assoc, if_neg hsn]
    rfl

/-- The body decoder of a carried message reads exactly the bytes of its encoder. -/
theorem decodeBody_bytes {base rest : List UInt8} {c : Cursor} {common : Common}
    {m : Message} (hm : m.Carried common) (h : Remains base c (m.bytes ++ rest))
    (junk : ℕ → UInt16) :
    ∃ r, decodeBody m.kind junk common base c
      = .ok (m.clearAbsent, r, c.advance m.bytes.length) := by
  cases m with
  | register reg =>
      refine ⟨4, ?_⟩
      simp only [Message.kind, decodeBody]
      rw [decodeRegister_bytes hm h]
      rfl
  | registerSuper reg =>
      refine ⟨8, ?_⟩
      simp only [Message.kind, decodeBody]
      rw [decodeRegisterSuper_bytes hm h]
      rfl
  | registerAck reg =>
      refine ⟨4, ?_⟩
      simp only [Message.kind, decodeBody]
      rw [decodeRegisterAck_bytes hm h]
      rfl
  | registerSuperAck reg =>
      refine ⟨7, ?_⟩
      simp only [Message.kind, decodeBody]
      rw [decodeRegisterSuperAck_bytes hm h]
      rfl
  | packet pkt =>
      refine ⟨0, ?_⟩
      simp only [Message.kind, decodeBody]
      rw [decodePacket_bytes hm h]
      rfl

/-- **The wire codec round-trips.**  For every header inside its masks and every message
the format carries, `decode_common` and then the body decoder of that kind, run where the
encoder started and with any bytes after what it wrote, give back the header and the body;
`idx` ends where the encoder stopped and `rem` counts what comes after.  The optional socket
of an ack or a packet is none when it has no family, and arrives as zeros then. -/
theorem wire_round_trip (common : Common) (m : Message) (hmask : common.Masked)
    (hm : m.Carried common) (before after : List UInt8) (out : Common) (junk : ℕ → UInt16) :
    ∃ r₁ c₁ r₂,
      decodeCommon out ((encodeMessage before common m).1 ++ after)
          ⟨before.length, (encodeMessage before common m).1.length - before.length + after.length⟩
        = .ok (common, r₁, c₁) ∧
      decodeBody m.kind junk common ((encodeMessage before common m).1 ++ after) c₁
        = .ok (m.clearAbsent, r₂, ⟨(encodeMessage before common m).1.length, after.length⟩) ∧
      (m.AbsentZero → m.clearAbsent = m) := by
  rw [encodeMessage_fst]
  generalize hc : Cursor.mk before.length
    ((before ++ (commonBytes common ++ m.bytes)).length - before.length + after.length) = c
  have hlen : (before ++ (commonBytes common ++ m.bytes)).length
      = before.length + ((commonBytes common).length + m.bytes.length) := by
    simp only [List.length_append]
  have h : Remains (before ++ (commonBytes common ++ m.bytes) ++ after) c
      (commonBytes common ++ (m.bytes ++ after)) := by
    subst hc
    constructor
    · simp only [List.length_append]
      omega
    · simp only [List.append_assoc, List.drop_left]
    · simp only [List.length_append]
      omega
  have h₁ : Remains _ (c.advance 20) (m.bytes ++ after) := h.advance_append
  obtain ⟨r₂, hbody⟩ := decodeBody_bytes hm h₁ junk
  refine ⟨20, c.advance 20, r₂, decodeCommon_commonBytes hmask h out, ?_,
    Message.AbsentZero.clearAbsent_eq_self⟩
  rw [hbody]
  have hcommon : (commonBytes common).length = 20 := rfl
  have hend : (c.advance 20).advance m.bytes.length
      = ⟨(before ++ (commonBytes common ++ m.bytes)).length, after.length⟩ := by
    subst hc
    rw [Cursor.advance_advance, Cursor.advance, Cursor.mk.injEq, hlen, hcommon]
    dsimp only
    constructor <;> omega
  rw [hend]

/-- The header of a supernode's answer. -/
def superAckHeader : Common where
  ttl := 2
  pc := 6
  flags := 0x0060
  community := fun i => 97 + i.val.toUInt8

/-- An answer that names a backup supernode reached over the other address family. -/
def superAckBody : RegisterSuperAck where
  cookie := fun i => i.val.toUInt8
  lifetime := 300
  sock := ⟨afInet, 7654, fun i => if i.val < 4 then 10 else 0⟩
  numSn := 1
  snBak := ⟨afInet6, 7655, fun i => i.val.toUInt8⟩

theorem wire_round_trip_super_ack :
    ∃ r₁ c₁ r₂,
      decodeCommon superAckHeader
          ((encodeMessage [1, 2] superAckHeader (.registerSuperAck superAckBody)).1 ++ [3])
          ⟨2, (encodeMessage [1, 2] superAckHeader (.registerSuperAck superAckBody)).1.length
            - 2 + 1⟩
        = .ok (superAckHeader, r₁, c₁) ∧
      decodeBody .registerSuperAck (fun _ => 0) superAckHeader
          ((encodeMessage [1, 2] superAckHeader (.registerSuperAck superAckBody)).1 ++ [3]) c₁
        = .ok (.registerSuperAck superAckBody, r₂,
            ⟨(encodeMessage [1, 2] superAckHeader (.registerSuperAck superAckBody)).1.length,
              1⟩) := by
  have hmask : superAckHeader.Masked := by
    unfold Common.Masked
    decide
  have hcarried : (Message.registerSuperAck superAckBody).Carried superAckHeader := by
    refine ⟨Or.inl ⟨rfl, ?_⟩, fun _ => Or.inr rfl, fun h => absurd h (by decide)⟩
    intro i hi
    exact if_neg (by omega)
  obtain ⟨r₁, c₁, r₂, hheader, hbody, -⟩ :=
    wire_round_trip superAckHeader (.registerSuperAck superAckBody) hmask hcarried [1, 2] [3]
      superAckHeader (fun _ => 0)
  exact ⟨r₁, c₁, r₂, hheader, hbody⟩

end Zevent.Upunch
