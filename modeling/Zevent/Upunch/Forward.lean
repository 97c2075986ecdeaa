/-
# What a supernode forwards (`upunch/sn.c`)

A REGISTER that arrives at the supernode is decoded, its sender is replaced by the address it
came from, and it is encoded again into `encbuf`; the bytes behind the cursor follow
unchanged.  The sender is of IPv4 then, whatever it was before, so the datagram gets shorter
or stays as long as it was.

* `RegisterDatagram` is a complete REGISTER: a header, a cookie, two sockets as they may stand
  on the wire (`WireSock`), and a payload.
* `register_fits` says that `encbuf` is large enough for what comes of any datagram, also of
  one that is cut.
* `register_forwarded` is the main result.
-/
import Zevent.Upunch.Supernode

namespace Zevent.Upunch

open Interleaving

/-! ## A REGISTER on the wire -/

/-- A socket as it may stand in a datagram: of the flag word only the highest bit matters. -/
structure WireSock where
  flags : UInt16
  port : UInt16
  addr : List UInt8
  length : addr.length = if flags &&& 0x8000 ≠ 0 then 16 else 4

namespace WireSock

def bytes (w : WireSock) : List UInt8 := be16 w.flags ++ (be16 w.port ++ w.addr)

/-- The socket it stands for. -/
def sock (w : WireSock) : Sock :=
  if w.flags &&& 0x8000 ≠ 0 then
    { family := afInet6, port := w.port, addr := overwrite (fun _ => 0) w.addr }
  else { family := afInet, port := w.port, addr := overwrite (fun _ => 0) w.addr }

/-- The bytes that IPv4 does not use are zero. -/
theorem carried (w : WireSock) : w.sock.Carried := by
  rw [sock]
  split_ifs with hv6
  · exact .inr rfl
  · refine .inl ⟨rfl, fun i hi => ?_⟩
    have hlen := w.length
    rw [if_neg hv6] at hlen
    show w.addr.getD i 0 = 0
    rw [List.getD_eq_getElem?_getD, List.getElem?_eq_none (by omega)]
    rfl

theorem length_bytes (w : WireSock) : w.bytes.length = (sockBytes w.sock).length := by
  have hlen := w.length
  rw [bytes, sock]
  split_ifs at hlen ⊢ with hv6
  · simp [sockBytes, be16, hlen, afInet, afInet6]
  · simp [sockBytes, be16, hlen, afInet]

end WireSock

/-- The four bytes of IPv4 in a cleared union. -/
theorem setV4_overwrite {bytes : List UInt8} (hlen : bytes.length = 4) :
    setV4 (fun _ => 0) (overwrite (v4 fun _ => 0) bytes) = overwrite (fun _ => 0) bytes := by
  funext i
  rw [setV4, overwrite, getD_ofFn, overwrite]
  split_ifs with hi
  · rfl
  · rw [List.getD_eq_getElem?_getD, List.getElem?_eq_none (by omega)]
    rfl

/-- A socket on the wire is decoded to what it stands for. -/
theorem decodeSock_wire {base rest : List UInt8} {c : Cursor} {w : WireSock}
    (h : Remains base c (w.bytes ++ rest)) (junk : UInt16) :
    decodeSock junk Sock.zero base c = .ok (w.sock, 0, c.advance w.bytes.length) := by
  rw [WireSock.bytes, List.append_assoc, List.append_assoc] at h
  have h₁ : Remains base (c.advance 2) _ := h.advance_append
  have h₂ : Remains base ((c.advance 2).advance 2) _ := h₁.advance_append
  have hlen := w.length
  rw [decodeSock, decodeUint16_be16 h, WireSock.sock]
  simp only [ok_bind]
  split_ifs at hlen ⊢ with hv6
  · rw [decodeUint16_be16 h₁]
    simp only [ok_bind]
    rw [decodeBuf_ok h₂ (by simp [hlen]) le_rfl, List.take_left' hlen]
    simp only [ok_bind, Cursor.advance_advance, WireSock.bytes, List.length_append, hlen]
    rfl
  · rw [decodeUint16_be16 h₁]
    simp only [ok_bind]
    rw [decodeBuf_ok h₂ (by simp [hlen]) le_rfl, List.take_left' hlen]
    simp only [ok_bind, Cursor.advance_advance, WireSock.bytes, List.length_append, hlen,
      setV4_overwrite hlen]
    rfl

/-- A complete REGISTER: any header of that type, and any bytes behind the sockets. -/
structure RegisterDatagram where
  common : Common
  cookie : Bytes 4
  origSender : WireSock
  destSock : WireSock
  payload : List UInt8
  masked : common.Masked
  pc : common.pc = 1

namespace RegisterDatagram

/-- The body: the fields and the payload. -/
def body (d : RegisterDatagram) : List UInt8 :=
  List.ofFn d.cookie ++ (d.origSender.bytes ++ (d.destSock.bytes ++ d.payload))

def bytes (d : RegisterDatagram) : List UInt8 := commonBytes d.common ++ d.body

/-- What the decoder makes of the body. -/
def reg (d : RegisterDatagram) : Register := ⟨d.cookie, d.origSender.sock, d.destSock.sock⟩

end RegisterDatagram

theorem decodeRegister_wire {base : List UInt8} {c : Cursor} (d : RegisterDatagram)
    (h : Remains base c d.body) (junk : ℕ → UInt16) :
    ∃ c', decodeRegister junk base c = .ok (d.reg, 4, c') ∧ Remains base c' d.payload := by
  rw [RegisterDatagram.body] at h
  have h₁ : Remains base (c.advance 4) _ := h.advance_append
  have h₂ := h₁.advance_append
  rw [decodeRegister, decodeBuf_ofFn h]
  simp only [ok_bind]
  rw [decodeSock_wire h₁]
  simp only [ok_bind]
  rw [decodeSock_wire h₂]
  exact ⟨_, rfl, h₂.advance_append⟩

/-! ## The size of what is encoded again -/

/-- A socket has 20 bytes at most. -/
theorem length_sockBytes_le (sock : Sock) : (sockBytes sock).length ≤ 20 := by
  rw [sockBytes]
  split_ifs <;> simp [be16]

/-- The REGISTER that is forwarded, as it is encoded: its sender takes eight bytes. -/
theorem encodeRegister_forwarded (common : Common) (sender : SockaddrIn) (reg : Register) :
    (encodeRegister [] common (Supernode.forwarded sender reg)).1
      = commonBytes common ++ (List.ofFn reg.cookie
        ++ (be16 0 ++ be16 (ntohs sender.sinPort) ++ List.ofFn sender.sinAddr
          ++ sockBytes reg.destSock)) := by
  have hv4 : v4 (setV4 reg.origSender.addr sender.sinAddr) = sender.sinAddr := by
    funext i
    rw [v4, setV4, overwrite, getD_ofFn]
    exact dif_pos i.isLt
  have hsock : sockBytes (Supernode.forwarded sender reg).origSender
      = be16 0 ++ be16 (ntohs sender.sinPort) ++ List.ofFn sender.sinAddr := by
    have hfamily : (Supernode.forwarded sender reg).origSender.family = afInet := rfl
    rw [sockBytes, if_pos hfamily]
    dsimp only [Supernode.forwarded]
    rw [hv4]
  have henc := encodeMessage_fst [] common (.register (Supernode.forwarded sender reg))
  rw [Message.bytes, hsock] at henc
  exact henc

/-- The size of a forwarded REGISTER without the payload. -/
theorem length_encodeRegister_forwarded (common : Common) (sender : SockaddrIn)
    (reg : Register) :
    (encodeRegister [] common (Supernode.forwarded sender reg)).1.length
      = 32 + (sockBytes reg.destSock).length := by
  rw [encodeRegister_forwarded]
  simp [commonBytes, be16]
  omega

/-- A socket is decoded from as many bytes as it is encoded to, when they are all there. -/
theorem decodeSock_length {base rest : List UInt8} {c : Cursor} (h : Remains base c rest)
    (hlen : 20 ≤ rest.length) (junk : UInt16) (out : Sock) :
    ∃ sock c' rest', decodeSock junk out base c = .ok (sock, 0, c') ∧ Remains base c' rest'
      ∧ rest'.length + (sockBytes sock).length = rest.length
      ∧ 8 ≤ (sockBytes sock).length := by
  have h₁ := h.advance (show 2 ≤ rest.length by omega)
  have hlen₁ : (rest.drop 2).length = rest.length - 2 := List.length_drop
  have h₂ := h₁.advance (show 2 ≤ (rest.drop 2).length by omega)
  have hlen₂ : ((rest.drop 2).drop 2).length = rest.length - 4 := by
    rw [List.length_drop, hlen₁]
    omega
  rw [decodeSock, decodeUint16_wordAt h (by omega)]
  simp only [ok_bind]
  split_ifs
  · rw [decodeUint16_wordAt h₁ (by omega)]
    simp only [ok_bind]
    rw [decodeBuf_ok h₂ (by omega) le_rfl]
    refine ⟨_, _, _, rfl, h₂.advance (show 16 ≤ _ by omega), ?_⟩
    have hsize : ∀ port addr, (sockBytes ⟨afInet6, port, addr⟩).length = 20 :=
      fun _ _ => by simp [sockBytes, be16, afInet, afInet6]
    rw [List.length_drop, hlen₂, hsize]
    omega
  · rw [decodeUint16_wordAt h₁ (by omega)]
    simp only [ok_bind]
    rw [decodeBuf_ok h₂ (by omega) le_rfl]
    refine ⟨_, _, _, rfl, h₂.advance (show 4 ≤ _ by omega), ?_⟩
    have hsize : ∀ port addr, (sockBytes ⟨afInet, port, addr⟩).length = 8 :=
      fun _ _ => by simp [sockBytes, be16]
    rw [List.length_drop, hlen₂, hsize]
    omega

/-- The rest of the datagram is copied when it fits. -/
theorem appendRest_ok {encbuf udpBuf rest : List UInt8} {c : Cursor} (h : Remains udpBuf c rest)
    (hfits : encbuf.length + rest.length ≤ pktbufSize) :
    Supernode.appendRest encbuf udpBuf c = .ok (encbuf ++ rest) := by
  have hlen := h.length
  rw [Supernode.appendRest, if_neg (by omega), h.drop]

/-- Of a REGISTER, however it was cut, no more is encoded again than has arrived, up to a few
bytes that fit when it was cut. -/
theorem register_fits {udpBuf rest : List UInt8} {c : Cursor} (h : Remains udpBuf c rest)
    (hrest : rest.length + 20 ≤ pktbufSize) (common : Common) (sender : SockaddrIn)
    (junk : ℕ → UInt16) :
    ∃ reg r c' recBuf, decodeRegister junk udpBuf c = .ok (reg, r, c')
      ∧ Supernode.appendRest (encodeRegister [] common (Supernode.forwarded sender reg)).1 udpBuf c'
        = .ok recBuf
      ∧ recBuf.length ≤ pktbufSize := by
  have hsize : ∃ reg r c' rest', decodeRegister junk udpBuf c = .ok (reg, r, c')
      ∧ Remains udpBuf c' rest'
      ∧ 32 + (sockBytes reg.destSock).length + rest'.length ≤ pktbufSize := by
    rw [pktbufSize] at hrest ⊢
    by_cases hcut : rest.length < 44
    · obtain ⟨reg, r, c', rest', hreg, hrest', hlen⟩ := decodeRegister_stays h hcut.le junk
      have hdest := length_sockBytes_le reg.destSock
      exact ⟨reg, r, c', rest', hreg, hrest', by omega⟩
    · -- everything is there
      have h₁ := h.advance (show 4 ≤ rest.length by omega)
      have hlen₁ : (rest.drop 4).length = rest.length - 4 := List.length_drop
      obtain ⟨orig, c₂, rest₂, horig, h₂, hlen₂, hmin⟩ :=
        decodeSock_length h₁ (by omega) (junk 0) Sock.zero
      have horigLe := length_sockBytes_le orig
      obtain ⟨dest, c₃, rest₃, hdest, h₃, hlen₃, -⟩ :=
        decodeSock_length h₂ (by omega) (junk 1) Sock.zero
      have hreg : decodeRegister junk udpBuf c
          = .ok (⟨overwrite (fun _ => 0) (rest.take 4), orig, dest⟩, 4, c₃) := by
        rw [decodeRegister, decodeBuf_ok h (by omega) le_rfl]
        simp only [ok_bind]
        rw [horig]
        simp only [ok_bind]
        rw [hdest]
        rfl
      refine ⟨_, _, c₃, rest₃, hreg, h₃, ?_⟩
      dsimp only
      omega
  obtain ⟨reg, r, c', rest', hreg, hrest', hle⟩ := hsize
  have henc := length_encodeRegister_forwarded common sender reg
  exact ⟨reg, r, c', _, hreg, appendRest_ok hrest' (by omega), by rw [List.length_append]; omega⟩

/-- What is left behind the header. -/
theorem decodeCommon_rest {udpBuf : List UInt8} (hlen : udpBuf.length ≤ pktbufSize)
    (out : Common) :
    ∃ cmn r c rest, decodeCommon out udpBuf ⟨0, udpBuf.length⟩ = .ok (cmn, r, c)
      ∧ Remains udpBuf c rest ∧ (0 ≤ r → rest.length + 20 ≤ pktbufSize) := by
  by_cases hv : udpBuf.getD 0 0 = pktVersion
  · by_cases hcut : udpBuf.length < 20
    · obtain ⟨cmn, r, c, rest, hcommon, hrest, hle⟩ :=
        decodeCommon_stays (remains_start udpBuf) hcut.le out
      exact ⟨cmn, r, c, rest, hcommon, hrest, fun _ => by rw [pktbufSize]; omega⟩
    · obtain ⟨cmn, c, hcommon, hrest, -⟩ := decodeCommon_whole hv (not_lt.mp hcut) out
      exact ⟨cmn, 20, c, _, hcommon, hrest, fun _ => by rw [List.length_drop]; omega⟩
  · obtain ⟨c, rest, hcommon, hrest⟩ := decodeCommon_version hv out
    exact ⟨out, -1, c, rest, hcommon, hrest, fun h => by omega⟩

/-- A REGISTER_SUPER fails to be processed only where it fails to be decoded. -/
theorem registerSuper_ok_iff (sss : Supernode) (sender : SockaddrIn) {udpBuf rest : List UInt8}
    {c : Cursor} (h : Remains udpBuf c rest) (now : ℤ) (u : Uninit) (cmn : Common) :
    (∃ r, sss.registerSuper sender udpBuf now u cmn c = .ok r) ↔ ¬ TokenOverflow rest := by
  constructor
  · rintro ⟨r, hr⟩ htok
    rw [Supernode.registerSuper, decodeRegisterSuper_writePast h htok] at hr
    cases hr
  · intro htok
    obtain ⟨reg, r, c', -, hreg, -⟩ := decodeRegisterSuper_stays h le_rfl htok
    rw [Supernode.registerSuper, hreg]
    exact ⟨_, rfl⟩

/-- A REGISTER with room for the socket of its sender is handled. -/
theorem register_ok (sss : Supernode) (sender : SockaddrIn) {udpBuf rest : List UInt8}
    {c : Cursor} (h : Remains udpBuf c rest) (hrest : rest.length + 20 ≤ pktbufSize) (now : ℤ)
    (u : Uninit) (sendOk : Bool) (cmn : Common) :
    ∃ r, sss.register sender udpBuf now u sendOk cmn c = .ok r := by
  obtain ⟨reg, r, c', recBuf, hreg, hrec, -⟩ :=
    register_fits h hrest { cmn with flags := flagsFromSupernode } sender u.flags
  rw [Supernode.register, hreg]
  simp only [ok_bind]
  rw [hrec]
  exact ⟨_, rfl⟩

/-- **Only an overlong token breaks `process_udp`.**  On every datagram that fits the buffer
it is received in, the whole function fails exactly when its decoding does. -/
theorem processUdp_ok_iff_decoding (sss : Supernode) (sender : SockaddrIn) {udpBuf : List UInt8}
    (hlen : udpBuf.length ≤ pktbufSize) (now : ℤ) (u : Uninit) (sendOk : Bool) :
    (∃ r, sss.processUdp sender udpBuf now u sendOk = .ok r)
      ↔ ∃ m, processUdp u.cmn u.flags udpBuf = .ok m := by
  obtain ⟨cmn, r, c, rest, hcommon, hrest, hle⟩ := decodeCommon_rest hlen u.cmn
  rw [processUdp_ok_iff hcommon hrest, Supernode.processUdp, hcommon]
  simp only [ok_bind]
  split_ifs with hr httl hbeat hreg hsuper
  · exact iff_of_true ⟨_, rfl⟩ fun h => by omega
  · exact iff_of_true ⟨_, rfl⟩ fun h => h.2.1 httl
  · refine iff_of_true ⟨_, rfl⟩ fun h => ?_
    rw [hbeat] at h
    exact absurd h.2.2.1 (by decide)
  · refine iff_of_true (register_ok sss sender hrest (hle (not_lt.mp hr)) now u sendOk _) ?_
    intro h
    rw [hreg] at h
    exact absurd h.2.2.1 (by decide)
  · rw [registerSuper_ok_iff sss sender hrest]
    simp [not_lt.mp hr, httl, hsuper]
  · exact iff_of_true ⟨_, rfl⟩ fun h => hsuper h.2.2.1

/-! ## The datagram that is sent -/

/-- The header that is forwarded. -/
def RegisterDatagram.forwardedCommon (d : RegisterDatagram) : Common :=
  { d.common with ttl := d.common.ttl - 1, flags := flagsFromSupernode }

/-- The body that is forwarded: the sender is the address the datagram came from. -/
def RegisterDatagram.forwardedReg (d : RegisterDatagram) (sender : SockaddrIn) : Register where
  cookie := d.cookie
  origSender :=
    { family := afInet
      port := ntohs sender.sinPort
      addr := setV4 (fun _ => 0) sender.sinAddr }
  destSock := d.destSock.sock

/-- The bytes decode to the header and the body that are forwarded, with the payload behind
them, whatever the decoder finds in its variables. -/
def RegisterDatagram.DecodesTo (d : RegisterDatagram) (sender : SockaddrIn)
    (bytes : List UInt8) : Prop :=
  ∀ (out : Common) (junk : ℕ → UInt16), ∃ c₁ c₂,
    decodeCommon out bytes ⟨0, bytes.length⟩ = .ok (d.forwardedCommon, 20, c₁)
      ∧ decodeRegister junk bytes c₁ = .ok (d.forwardedReg sender, 4, c₂)
      ∧ Remains bytes c₂ d.payload

namespace RegisterDatagram

variable (d : RegisterDatagram) (sender : SockaddrIn)

theorem forwardedCommon_masked : d.forwardedCommon.Masked := by
  refine ⟨d.masked.1, ?_⟩
  show flagsFromSupernode &&& flagsBitsMask = flagsFromSupernode
  decide

theorem setV4_zero_unused (v : Bytes 4) (i : Fin 16) (hi : 4 ≤ i.val) :
    setV4 (fun _ => 0) v i = 0 := by
  rw [setV4, overwrite, getD_ofFn, dif_neg (by omega)]

/-- An IPv4 address is read back from where it was written. -/
theorem v4_setV4 (addr : Bytes 16) (v : Bytes 4) : v4 (setV4 addr v) = v := by
  funext i
  rw [v4, setV4, overwrite, getD_ofFn]
  exact dif_pos i.isLt

/-- The format carries the REGISTER that is sent on. -/
theorem forwardedReg_carried :
    (Message.register (d.forwardedReg sender)).Carried d.forwardedCommon :=
  ⟨.inl ⟨rfl, setV4_zero_unused sender.sinAddr⟩, d.destSock.carried⟩

/-- What is sent is the encoding of the header and the body that are forwarded, and the
payload. -/
theorem encodeRegister_eq :
    (encodeRegister [] d.forwardedCommon (Supernode.forwarded sender d.reg)).1
      = commonBytes d.forwardedCommon ++ (Message.register (d.forwardedReg sender)).bytes := by
  have hsock : sockBytes (d.forwardedReg sender).origSender
      = be16 0 ++ be16 (ntohs sender.sinPort) ++ List.ofFn sender.sinAddr := by
    have hfamily : (d.forwardedReg sender).origSender.family = afInet := rfl
    rw [sockBytes, if_pos hfamily]
    dsimp only [forwardedReg]
    rw [v4_setV4]
  rw [encodeRegister_forwarded, Message.bytes, hsock]
  rfl

theorem decodesTo_forwarded :
    d.DecodesTo sender ((encodeRegister [] d.forwardedCommon
      (Supernode.forwarded sender d.reg)).1 ++ d.payload) := by
  rw [encodeRegister_eq, List.append_assoc]
  intro out junk
  have h := remains_start (commonBytes d.forwardedCommon
    ++ ((Message.register (d.forwardedReg sender)).bytes ++ d.payload))
  have h₁ : Remains _ (Cursor.advance _ 20) _ := h.advance_append
  exact ⟨_, _, decodeCommon_commonBytes d.forwardedCommon_masked h out,
    decodeRegister_bytes (d.forwardedReg_carried sender) h₁ junk, h₁.advance_append⟩

theorem length_forwarded (hlen : d.bytes.length ≤ pktbufSize) :
    (encodeRegister [] d.forwardedCommon (Supernode.forwarded sender d.reg)).1.length
      + d.payload.length ≤ pktbufSize := by
  have hdest := d.destSock.length_bytes
  have horig : 8 ≤ d.origSender.bytes.length := by
    have horigLen := d.origSender.length
    rw [WireSock.bytes]
    split_ifs at horigLen <;> simp [be16, horigLen]
  rw [length_encodeRegister_forwarded]
  simp only [bytes, body, commonBytes, be16, List.length_append, List.length_cons,
    List.length_nil, List.length_ofFn] at hlen
  dsimp only [reg]
  omega

/-- The header of a REGISTER that is cut behind it. -/
theorem take_bytes {n : ℕ} (hn : 20 ≤ n) :
    d.bytes.take n = commonBytes d.common ++ d.body.take (n - 20) := by
  have hcommon : (commonBytes d.common).length = 20 := by simp [commonBytes, be16]
  rw [bytes, List.take_append, List.take_of_length_le (by omega), hcommon]

end RegisterDatagram

section Forwarding

open Supernode

variable {sss : Supernode}

/-- An edge that is found is sent the datagram. -/
theorem tryForward_found {p : Registration} {dst : Sock}
    (hfind : Supernode.findPeerByAddr sss.edges dst.key = some p)
    (hfamily : p.sock.family = afInet) (pktbuf : List UInt8) (sendOk : Bool) :
    (sss.tryForward dst pktbuf sendOk).2 = [⟨⟨htons p.sock.port, p.sock.v4⟩, pktbuf⟩] := by
  have hsend : sendtoSock p.sock.toSock pktbuf
      = some ⟨⟨htons p.sock.port, p.sock.v4⟩, pktbuf⟩ := by
    rw [sendtoSock, if_pos hfamily]
  rw [tryForward, hfind]
  dsimp only
  rw [hsend]
  cases sendOk <;> rfl

/-- **What a complete REGISTER does.** -/
theorem processUdp_register (hlisted : Listed sss.edges) (d : RegisterDatagram)
    (hlen : d.bytes.length ≤ pktbufSize) (httl : 1 ≤ d.common.ttl) {p : Registration}
    (hp : p ∈ sss.edges) (hdest : p.sock.key = d.destSock.sock.key) (sender : SockaddrIn)
    (now : ℤ) (u : Uninit) (sendOk : Bool) :
    ∃ r, sss.processUdp sender d.bytes now u sendOk = .ok r
      ∧ r.sent = [⟨⟨htons p.sock.port, p.sock.v4⟩,
        (encodeRegister [] d.forwardedCommon (forwarded sender d.reg)).1 ++ d.payload⟩] := by
  have h : Remains d.bytes ⟨0, d.bytes.length⟩ (commonBytes d.common ++ d.body) :=
    remains_start d.bytes
  have hbody : Remains d.bytes (Cursor.advance ⟨0, d.bytes.length⟩ 20) d.body := h.advance_append
  obtain ⟨c', hreg, hpayload⟩ := decodeRegister_wire d hbody u.flags
  have hfind : Supernode.findPeerByAddr sss.edges d.reg.destSock.key = some p :=
    hdest ▸ hlisted.find hp
  have httl' : ¬ d.common.ttl < 1 := UInt8.not_lt.mpr httl
  rw [Supernode.processUdp, decodeCommon_commonBytes d.masked h]
  simp only [ok_bind]
  rw [if_neg (by decide), if_neg httl', if_neg (by rw [d.pc]; decide), if_pos d.pc, register, hreg]
  simp only [ok_bind]
  have hrest := appendRest_ok hpayload (d.length_forwarded sender hlen)
  rw [RegisterDatagram.forwardedCommon] at hrest ⊢
  rw [hrest]
  refine ⟨_, rfl, ?_⟩
  apply tryForward_found
  · exact hfind
  · exact hlisted.family p hp

/-- A REGISTER that is cut somewhere is processed without an overrun as well. -/
theorem processUdp_register_cut (d : RegisterDatagram) (hlen : d.bytes.length ≤ pktbufSize)
    (n : ℕ) (sender : SockaddrIn) (now : ℤ) (u : Uninit) (sendOk : Bool) :
    ∃ r, sss.processUdp sender (d.bytes.take n) now u sendOk = .ok r := by
  have hlen' : (d.bytes.take n).length ≤ pktbufSize := by
    rw [List.length_take]
    omega
  rw [processUdp_ok_iff_decoding sss sender hlen']
  by_cases hn : 20 ≤ n
  · -- the whole header is there, so it is a REGISTER
    have h := remains_start (d.bytes.take n)
    rw [d.take_bytes hn] at h ⊢
    have h₁ : Remains _ (Cursor.advance _ 20) _ := h.advance_append
    rw [processUdp_ok_iff (decodeCommon_commonBytes d.masked h u.cmn) h₁]
    rintro ⟨-, -, hpc, -⟩
    rw [d.pc] at hpc
    exact absurd hpc (by decide)
  · -- a cut header leaves too few bytes for any token
    have hcut : (d.bytes.take n).length ≤ 20 := by
      rw [List.length_take]
      omega
    obtain ⟨cmn, r, c, rest, hcommon, hrest, hshort⟩ :=
      decodeCommon_stays (remains_start (d.bytes.take n)) hcut u.cmn
    rw [processUdp_ok_iff hcommon hrest]
    rintro ⟨-, -, -, htok⟩
    unfold TokenOverflow at htok
    omega

/-- **Forwarding keeps the REGISTER.**  In every state of a supernode, for every complete
REGISTER that fits the receive buffer: if it is still to live and its destination is a
registered edge, exactly one datagram is sent, to that edge; it fits `encbuf`, and it decodes to
the same cookie, community, destination and payload, with a time to live one lower, the flags
`P2P_FLAGS_FROM_SUPERNODE` and the sender's IPv4 address and port.  And wherever such a
datagram is cut, what is encoded again fits as well. -/
theorem register_forwarded (h : Reach Supernode.step Always Supernode.start sss)
    (d : RegisterDatagram) (hlen : d.bytes.length ≤ pktbufSize) (sender : SockaddrIn) (now : ℤ)
    (u : Uninit) (sendOk : Bool) :
    (1 ≤ d.common.ttl → ∀ p ∈ sss.edges, p.sock.key = d.destSock.sock.key →
        ∃ r bytes, sss.processUdp sender d.bytes now u sendOk = .ok r
          ∧ r.sent = [⟨⟨htons p.sock.port, p.sock.v4⟩, bytes⟩]
          ∧ bytes.length ≤ pktbufSize ∧ d.DecodesTo sender bytes)
      ∧ ∀ n, ∃ r, sss.processUdp sender (d.bytes.take n) now u sendOk = .ok r := by
  refine ⟨fun httl p hp hdest => ?_, fun n => processUdp_register_cut d hlen n sender now u sendOk⟩
  obtain ⟨r, hr, hsent⟩ :=
    processUdp_register (reach_listed h) d hlen httl hp hdest sender now u sendOk
  refine ⟨r, _, hr, hsent, ?_, d.decodesTo_forwarded sender⟩
  rw [List.length_append]
  exact d.length_forwarded sender hlen

/-- A REGISTER of IPv6 for the edge at 10.0.0.1:7654, with five bytes behind it. -/
def sampleRegister : RegisterDatagram where
  common := ⟨2, 1, 0, fun _ => 97⟩
  cookie := fun _ => 7
  origSender := ⟨0x8000, 5000, List.replicate 16 9, by decide⟩
  destSock := ⟨0, 7654, [10, 0, 0, 1], by decide⟩
  payload := [1, 2, 3, 4, 5]
  masked := ⟨by decide, by decide⟩
  pc := rfl

theorem register_forwarded_sample : ∃ sss : Supernode, ∃ r bytes,
    sss.edges = [sampleEdge (htons 7654)]
      ∧ sss.processUdp (sampleSender 0x2020) sampleRegister.bytes 2000 blankUninit true = .ok r
      ∧ r.sent = [⟨sampleSender (htons 7654), bytes⟩]
      ∧ bytes.length ≤ pktbufSize ∧ sampleRegister.DecodesTo (sampleSender 0x2020) bytes := by
  have hrun : (run Supernode.step Always Supernode.start
      [.datagram (sampleSender (htons 7654)) registerSuperDatagram 1000 blankUninit true]).map
      edges = some [sampleEdge (htons 7654)] := by
    decide
  obtain ⟨sss, hs, hedges⟩ := Option.map_eq_some_iff.mp hrun
  have hmem : sampleEdge (htons 7654) ∈ sss.edges := hedges ▸ List.mem_cons_self
  obtain ⟨r, bytes, hr, hsent, hlen, hdecodes⟩ :=
    (register_forwarded (Reach.refl.run _ hs) sampleRegister (by decide) (sampleSender 0x2020) 2000
      blankUninit true).1 (by decide) _ hmem (by decide)
  refine ⟨sss, r, bytes, hedges, hr, ?_, hlen, hdecodes⟩
  have hdest : (⟨htons (sampleEdge (htons 7654)).sock.port, (sampleEdge (htons 7654)).sock.v4⟩ :
      SockaddrIn) = sampleSender (htons 7654) := by
    rw [sampleSender, SockaddrIn.mk.injEq]
    exact ⟨by decide, congrArg Prod.snd (v4_ipv4Sock 7654 _ _)⟩
  rw [hsent, hdest]

end Forwarding

end Zevent.Upunch
