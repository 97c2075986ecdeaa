/-
# Decoding hostile datagrams (`upunch/sn.c`, `upunch/p2p_punch.c`)

The two places that decode what arrives on a UDP socket: `process_udp` of the supernode
and `readFromIPSocket` of a peer.  Both run `decode_common` on an uninitialised record,
test its result, and then decode the body of some of the message types.

`rem` starts as the length of the datagram and every decoder keeps `idx + rem` equal to
it (`Remains`), so nothing is ever read past the end, wherever the datagram was cut and
whatever the ignored failures left behind.  One write is not covered by that countdown:
`decode_REGISTER_SUPER` copies as many bytes into the 32-byte `auth.token` as the sender
put into `toksize`.  `datagram_decoding_in_bounds` says exactly which datagrams reach it.
-/
import Mathlib.Tactic
import Zevent.Upunch.Wire

namespace Zevent.Upunch

/-! ## The receive paths -/

/-- `MSG_TYPE_REGISTER` to `MSG_TYPE_REGISTER_SUPER_ACK`: the body of a packet code. -/
def kindOf (pc : UInt32) : Option Kind :=
  if pc = 1 then some .register
  else if pc = 3 then some .packet
  else if pc = 4 then some .registerAck
  else if pc = 5 then some .registerSuper
  else if pc = 6 then some .registerSuperAck
  else none

/-- `decode_common` and then the decoder of the type found in the header. -/
def decodeDatagram (out : Common) (junk : ℕ → UInt16) (udpBuf : List UInt8) :
    Except Fault (Option Message) := do
  let (cmn, r, c) ← decodeCommon out udpBuf ⟨0, udpBuf.length⟩
  if r < 0 then .ok none
  else match kindOf cmn.pc with
    | none => .ok none
    | some kind => do
        let (m, _, _) ← decodeBody kind junk cmn udpBuf c
        .ok (some m)

/-- The decoding of `process_udp`, with its return value.  The types it does not decode
are forwarded, counted or ignored. -/
def processUdp (out : Common) (junk : ℕ → UInt16) (udpBuf : List UInt8) :
    Except Fault (ℤ × Option Message) := do
  let (cmn, r, c) ← decodeCommon out udpBuf ⟨0, udpBuf.length⟩
  if r < 0 then .ok (-1, none)
  else if cmn.ttl < 1 then .ok (0, none)
  else match kindOf cmn.pc with
    | some .register => do
        let (m, _, _) ← decodeBody .register junk { cmn with ttl := cmn.ttl - 1 } udpBuf c
        .ok (0, some m)
    | some .registerSuper => do
        let (m, _, _) ← decodeBody .registerSuper junk { cmn with ttl := cmn.ttl - 1 } udpBuf c
        .ok (0, some m)
    | _ => .ok (0, none)

/-- The decoding of `readFromIPSocket` on a peer of the community `communityName`; an
answer of a supernode is decoded only while one is awaited. -/
def readFromIPSocket (communityName : Bytes 16) (snWait : Bool) (out : Common)
    (junk : ℕ → UInt16) (udpBuf : List UInt8) : Except Fault (Option Message) :=
  if udpBuf.length = 0 then .ok none
  else do
    let (cmn, r, c) ← decodeCommon out udpBuf ⟨0, udpBuf.length⟩
    if r < 0 then .ok none
    else if cmn.community ≠ communityName then .ok none
    else match kindOf cmn.pc with
      | some .register => do
          let (m, _, _) ← decodeBody .register junk cmn udpBuf c
          .ok (some m)
      | some .registerAck => do
          let (m, _, _) ← decodeBody .registerAck junk cmn udpBuf c
          .ok (some m)
      | some .registerSuperAck =>
          if snWait then do
            let (m, _, _) ← decodeBody .registerSuperAck junk cmn udpBuf c
            .ok (some m)
          else .ok none
      | _ => .ok none

/-! ## Decoders that stay inside -/

/-- The decoder succeeds, inside the datagram and with at most `n` bytes left. -/
def Stays {α β : Type} (base : List UInt8) (n : ℕ) (x : Except Fault (α × β × Cursor)) :
    Prop :=
  ∃ v r c rest, x = .ok (v, r, c) ∧ Remains base c rest ∧ rest.length ≤ n

section Stays

variable {base rest : List UInt8} {c : Cursor} {n : ℕ}

/-- A decoder followed by another one. -/
theorem Stays.bind {α β γ δ : Type} {x : Except Fault (α × β × Cursor)}
    {f : α × β × Cursor → Except Fault (γ × δ × Cursor)} (hx : Stays base n x)
    (hf : ∀ v r c rest, Remains base c rest → rest.length ≤ n → Stays base n (f (v, r, c))) :
    Stays base n (x >>= f) := by
  obtain ⟨v, r, c, rest, rfl, hrest, hn⟩ := hx
  exact hf v r c rest hrest hn

/-- A decoder that does not move the cursor stays inside of the datagram. -/
theorem Remains.stays {α β : Type} (h : Remains base c rest) (hn : rest.length ≤ n) (v : α)
    (r : β) : Stays base n (.ok (v, r, c)) :=
  ⟨v, r, c, rest, rfl, h, hn⟩

theorem Remains.stays_advance {α β : Type} (h : Remains base c rest) (hn : rest.length ≤ n)
    {k : ℕ} (hk : k ≤ rest.length) (v : α) (r : β) :
    Stays base n (.ok (v, r, c.advance k)) := by
  refine (h.advance hk).stays ?_ v r
  rw [List.length_drop]
  omega

/-- A byte is read inside of the datagram. -/
theorem decodeUint8_stays (h : Remains base c rest) (hn : rest.length ≤ n) (out : UInt8) :
    Stays base n (decodeUint8 out base c) := by
  cases rest with
  | nil =>
      rw [decodeUint8_nil h]
      exact h.stays hn _ _
  | cons b rest =>
      rw [decodeUint8_cons h]
      exact h.stays_advance hn (by simp) _ _

/-- The big-endian word at position `i`. -/
def wordAt (bytes : List UInt8) (i : ℕ) : UInt16 :=
  (bytes.getD i 0).toUInt16 <<< 8 ||| (bytes.getD (i + 1) 0).toUInt16

/-- A word is read from its two bytes. -/
theorem decodeUint16_wordAt (h : Remains base c rest) (hlen : 2 ≤ rest.length)
    (out : UInt16) : decodeUint16 out base c = .ok (wordAt rest 0, 2, c.advance 2) := by
  match rest, hlen with
  | hi :: lo :: rest, _ => exact decodeUint16_cons h out

theorem decodeUint16_stays (h : Remains base c rest) (hn : rest.length ≤ n) (out : UInt16) :
    Stays base n (decodeUint16 out base c) := by
  by_cases hlen : rest.length < 2
  · rw [decodeUint16_short h hlen]
    exact h.stays hn _ _
  · rw [decodeUint16_wordAt h (by omega)]
    exact h.stays_advance hn (by omega) _ _

/-- A field of bytes stays inside when the destination has room for it. -/
theorem decodeBuf_stays {m : ℕ} (h : Remains base c rest) (hn : rest.length ≤ n)
    {bufsize : ℕ} (hfield : bufsize ≤ m) (out : Bytes m) :
    Stays base n (decodeBuf out bufsize base c) := by
  by_cases hlen : rest.length < bufsize
  · rw [decodeBuf_short h hlen]
    exact h.stays hn _ _
  · rw [decodeBuf_ok h (by omega) hfield]
    exact h.stays_advance hn (by omega) _ _

/-- A socket is read inside of the datagram. -/
theorem decodeSock_stays (h : Remains base c rest) (hn : rest.length ≤ n) (junk : UInt16)
    (out : Sock) : Stays base n (decodeSock junk out base c) := by
  rw [decodeSock]
  refine (decodeUint16_stays h hn junk).bind fun f _ c₁ rest₁ h₁ hn₁ => ?_
  dsimp only
  split_ifs
  · refine (decodeUint16_stays h₁ hn₁ _).bind fun port _ c₂ rest₂ h₂ hn₂ => ?_
    exact (decodeBuf_stays h₂ hn₂ le_rfl _).bind fun _ _ _ _ h₃ hn₃ => h₃.stays hn₃ _ _
  · refine (decodeUint16_stays h₁ hn₁ _).bind fun port _ c₂ rest₂ h₂ hn₂ => ?_
    exact (decodeBuf_stays h₂ hn₂ le_rfl _).bind fun _ _ _ _ h₃ hn₃ => h₃.stays hn₃ _ _

theorem decodeCommon_stays (h : Remains base c rest) (hn : rest.length ≤ n) (out : Common) :
    Stays base n (decodeCommon out base c) := by
  rw [decodeCommon]
  refine (decodeUint8_stays h hn 0).bind fun dummy _ c₁ rest₁ h₁ hn₁ => ?_
  dsimp only
  split_ifs
  · exact h₁.stays hn₁ _ _
  · refine (decodeUint8_stays h₁ hn₁ _).bind fun ttl _ c₂ rest₂ h₂ hn₂ => ?_
    refine (decodeUint16_stays h₂ hn₂ _).bind fun flags _ c₃ rest₃ h₃ hn₃ => ?_
    exact (decodeBuf_stays h₃ hn₃ le_rfl _).bind fun _ _ _ _ h₄ hn₄ => h₄.stays hn₄ _ _

/-- A REGISTER is read inside of the datagram. -/
theorem decodeRegister_stays (h : Remains base c rest) (hn : rest.length ≤ n)
    (junk : ℕ → UInt16) : Stays base n (decodeRegister junk base c) := by
  rw [decodeRegister]
  refine (decodeBuf_stays h hn le_rfl _).bind fun _ _ _ _ h₁ hn₁ => ?_
  refine (decodeSock_stays h₁ hn₁ _ _).bind fun _ _ _ _ h₂ hn₂ => ?_
  exact (decodeSock_stays h₂ hn₂ _ _).bind fun _ _ _ _ h₃ hn₃ => h₃.stays hn₃ _ _

/-- A REGISTER_ACK is read inside of the datagram. -/
theorem decodeRegisterAck_stays (h : Remains base c rest) (hn : rest.length ≤ n)
    (junk : ℕ → UInt16) (cmn : Common) : Stays base n (decodeRegisterAck junk cmn base c) := by
  rw [decodeRegisterAck]
  refine (decodeBuf_stays h hn le_rfl _).bind fun _ _ _ _ h₁ hn₁ => ?_
  dsimp only
  split_ifs
  · exact (decodeSock_stays h₁ hn₁ _ _).bind fun _ _ _ _ h₂ hn₂ => h₂.stays hn₂ _ _
  · exact h₁.stays hn₁ _ _

/-- A REGISTER_SUPER_ACK is read inside of the datagram. -/
theorem decodeRegisterSuperAck_stays (h : Remains base c rest) (hn : rest.length ≤ n)
    (junk : ℕ → UInt16) : Stays base n (decodeRegisterSuperAck junk base c) := by
  rw [decodeRegisterSuperAck]
  refine (decodeBuf_stays h hn le_rfl _).bind fun _ _ _ _ h₁ hn₁ => ?_
  refine (decodeUint16_stays h₁ hn₁ _).bind fun _ _ _ _ h₂ hn₂ => ?_
  refine (decodeSock_stays h₂ hn₂ _ _).bind fun _ _ _ _ h₃ hn₃ => ?_
  refine (decodeUint8_stays h₃ hn₃ _).bind fun _ _ _ _ h₄ hn₄ => ?_
  dsimp only
  split_ifs
  · exact (decodeSock_stays h₄ hn₄ _ _).bind fun _ _ _ _ h₅ hn₅ => h₅.stays hn₅ _ _
  · exact h₄.stays hn₄ _ _

/-- A PACKET is read inside of the datagram. -/
theorem decodePacket_stays (h : Remains base c rest) (hn : rest.length ≤ n)
    (junk : ℕ → UInt16) (cmn : Common) : Stays base n (decodePacket junk cmn base c) := by
  rw [decodePacket]
  split_ifs
  · exact (decodeSock_stays h hn _ _).bind fun _ _ _ _ h₁ hn₁ => h₁.stays hn₁ _ _
  · exact h.stays hn _ _

/-- Every body but that of `REGISTER_SUPER` is decoded in bounds. -/
theorem decodeBody_stays (h : Remains base c rest) (hn : rest.length ≤ n) {kind : Kind}
    (hkind : kind ≠ .registerSuper) (junk : ℕ → UInt16) (cmn : Common) :
    Stays base n (decodeBody kind junk cmn base c) := by
  cases kind with
  | register =>
      exact (decodeRegister_stays h hn junk).bind fun _ _ _ _ h₁ hn₁ => h₁.stays hn₁ _ _
  | registerSuper => exact absurd rfl hkind
  | registerAck =>
      exact (decodeRegisterAck_stays h hn junk cmn).bind fun _ _ _ _ h₁ hn₁ => h₁.stays hn₁ _ _
  | registerSuperAck =>
      exact (decodeRegisterSuperAck_stays h hn junk).bind
        fun _ _ _ _ h₁ hn₁ => h₁.stays hn₁ _ _
  | packet =>
      exact (decodePacket_stays h hn junk cmn).bind fun _ _ _ _ h₁ hn₁ => h₁.stays hn₁ _ _

/-! ## The token -/

/-- The body of a `REGISTER_SUPER` announces a token larger than `auth.token` and brings
all of it: the cookie, the scheme and the size take eight bytes. -/
def TokenOverflow (rest : List UInt8) : Prop :=
  32 < (wordAt rest 6).toNat ∧ 8 + (wordAt rest 6).toNat ≤ rest.length

/-- With fewer than four bytes left, the second of two words is not read. -/
theorem decodeUint16_twice_short (h : Remains base c rest) (hn : rest.length ≤ n)
    (hlen : rest.length < 4) :
    ∃ v r c' rest', decodeUint16 0 base c = .ok (v, r, c') ∧ Remains base c' rest' ∧
      rest'.length ≤ n ∧ decodeUint16 0 base c' = .ok (0, 0, c') := by
  by_cases h2 : rest.length < 2
  · have hs := decodeUint16_short h h2 0
    exact ⟨0, 0, c, rest, hs, h, hn, hs⟩
  · have h' := h.advance (show 2 ≤ rest.length by omega)
    have hlen' : (rest.drop 2).length < 2 := by
      rw [List.length_drop]
      omega
    refine ⟨_, _, _, _, decodeUint16_wordAt h (by omega) 0, h', ?_, decodeUint16_short h' hlen' 0⟩
    omega

/-- A body too short for the size field: the token size stays 0. -/
theorem decodeRegisterSuper_stays_short (h : Remains base c rest) (hn : rest.length ≤ n)
    (hlen : rest.length < 8) : Stays base n (decodeRegisterSuper base c) := by
  have hcookie : ∃ v r c' rest', decodeBuf (fun _ => 0 : Bytes 4) 4 base c = .ok (v, r, c') ∧
      Remains base c' rest' ∧ rest'.length ≤ n ∧ rest'.length < 4 := by
    by_cases h4 : rest.length < 4
    · exact ⟨_, _, _, _, decodeBuf_short h h4 _, h, hn, h4⟩
    · refine ⟨_, _, _, _, decodeBuf_ok h (by omega) le_rfl _, h.advance (by omega), ?_, ?_⟩
      · rw [List.length_drop]
        omega
      · rw [List.length_drop]
        omega
  obtain ⟨cookie, r₁, c₁, rest₁, hc, h₁, hn₁, hlen₁⟩ := hcookie
  obtain ⟨scheme, r₂, c₂, rest₂, hs, h₂, hn₂, ht⟩ := decodeUint16_twice_short h₁ hn₁ hlen₁
  rw [decodeRegisterSuper, hc]
  simp only [ok_bind]
  rw [hs]
  simp only [ok_bind]
  rw [ht]
  exact (decodeBuf_stays h₂ hn₂ (Nat.zero_le _) _).bind fun _ _ _ _ h₃ hn₃ => h₃.stays hn₃ _ _

/-- A body with a size field: everything depends on the copy of the token. -/
theorem decodeRegisterSuper_long (h : Remains base c rest) (hlen : 8 ≤ rest.length) :
    ∃ cookie scheme, decodeRegisterSuper base c = (do
      let (token, r, c') ←
        decodeBuf (fun _ => 0 : Bytes 32) (wordAt rest 6).toNat base (c.advance 8)
      .ok ({ cookie, auth := { scheme, toksize := wordAt rest 6, token } }, 4 + 2 + 2 + r, c'))
    := by
  have h₁ := h.advance (show 4 ≤ rest.length by omega)
  have h₂ := h₁.advance (show 2 ≤ (rest.drop 4).length by rw [List.length_drop]; omega)
  have hword : wordAt ((rest.drop 4).drop 2) 0 = wordAt rest 6 := by
    simp [wordAt, List.getElem?_drop]
  refine ⟨overwrite (fun _ => 0) (rest.take 4), wordAt (rest.drop 4) 0, ?_⟩
  rw [decodeRegisterSuper, decodeBuf_ok h (by omega) le_rfl]
  simp only [ok_bind]
  rw [decodeUint16_wordAt h₁ (by rw [List.length_drop]; omega)]
  simp only [ok_bind]
  rw [decodeUint16_wordAt h₂ (by simp only [List.length_drop]; omega), hword]
  simp only [ok_bind, Cursor.advance_advance]

/-- A REGISTER_SUPER is read inside of the datagram unless its token overflows. -/
theorem decodeRegisterSuper_stays (h : Remains base c rest) (hn : rest.length ≤ n)
    (htok : ¬ TokenOverflow rest) : Stays base n (decodeRegisterSuper base c) := by
  by_cases hlen : rest.length < 8
  · exact decodeRegisterSuper_stays_short h hn hlen
  · obtain ⟨cookie, scheme, heq⟩ := decodeRegisterSuper_long h (by omega)
    have h₃ := h.advance (show 8 ≤ rest.length by omega)
    have hlen₃ : (rest.drop 8).length = rest.length - 8 := List.length_drop
    rw [heq]
    unfold TokenOverflow at htok
    by_cases hfit : (wordAt rest 6).toNat ≤ 32
    · -- a token that fits, or one that is not there and is not copied
      exact (decodeBuf_stays h₃ (by omega) hfit _).bind
        fun _ _ _ _ h₄ hn₄ => h₄.stays hn₄ _ _
    · -- an overlong token that the datagram does not bring
      rw [decodeBuf_short h₃ (by omega)]
      exact h₃.stays (by omega) _ _

/-- A token that overflows is written past its end. -/
theorem decodeRegisterSuper_writePast (h : Remains base c rest) (htok : TokenOverflow rest) :
    decodeRegisterSuper base c = .error .writePast := by
  obtain ⟨hbig, hall⟩ := htok
  have hlen : 8 ≤ rest.length := by omega
  obtain ⟨cookie, scheme, heq⟩ := decodeRegisterSuper_long h hlen
  have hlen₃ : (rest.drop 8).length = rest.length - 8 := List.length_drop
  rw [heq, decodeBuf_writePast (h.advance hlen) (by omega) hbig]
  rfl

/-- **Exactly the overlong token breaks a body decoder.** -/
theorem decodeBody_ok_iff (h : Remains base c rest) (kind : Kind) (junk : ℕ → UInt16)
    (cmn : Common) :
    (∃ v, decodeBody kind junk cmn base c = .ok v)
      ↔ ¬ (kind = .registerSuper ∧ TokenOverflow rest) := by
  by_cases hkind : kind = .registerSuper
  · subst hkind
    constructor
    · rintro ⟨v, hv⟩ ⟨-, htok⟩
      simp only [decodeBody] at hv
      rw [decodeRegisterSuper_writePast h htok] at hv
      cases hv
    · intro htok
      obtain ⟨v, r, c', -, hv, -⟩ :=
        decodeRegisterSuper_stays h le_rfl fun ht => htok ⟨rfl, ht⟩
      refine ⟨(.registerSuper v, r, c'), ?_⟩
      simp only [decodeBody]
      rw [hv, ok_bind]
  · obtain ⟨v, r, c', -, hv, -⟩ := decodeBody_stays h le_rfl hkind junk cmn
    exact ⟨fun _ hk => hkind hk.1, fun _ => ⟨_, hv⟩⟩

end Stays

/-! ## Datagrams -/

/-- A datagram of this version whose type is `REGISTER_SUPER`, whose `toksize` is larger
than the token and which is long enough to hold a token of that size. -/
def OverlongToken (udpBuf : List UInt8) : Prop :=
  udpBuf.getD 0 0 = pktVersion ∧ (wordAt udpBuf 2 &&& flagsTypeMask).toUInt32 = 5 ∧
    32 < (wordAt udpBuf 26).toNat ∧ 28 + (wordAt udpBuf 26).toNat ≤ udpBuf.length

theorem bind_ok_iff {α β : Type} {x : Except Fault α} {f : α → β} :
    (∃ w, (x >>= fun v => Except.ok (f v)) = Except.ok w) ↔ ∃ v, x = .ok v := by
  cases x with
  | error fault =>
      constructor
      · rintro ⟨w, hw⟩
        cases hw
      · rintro ⟨v, hv⟩
        cases hv
  | ok v => exact ⟨fun _ => ⟨v, rfl⟩, fun _ => ⟨f v, rfl⟩⟩

/-- The type 5 and no other is a REGISTER_SUPER. -/
theorem kindOf_eq_registerSuper_iff (pc : UInt32) :
    kindOf pc = some .registerSuper ↔ pc = 5 := by
  constructor
  · intro h
    unfold kindOf at h
    split_ifs at h with h₁ h₃ h₄ h₅ h₆
    · cases h
    · cases h
    · cases h
    · exact h₅
    · cases h
  · rintro rfl
    rfl

section Receive

variable {udpBuf rest : List UInt8} {out cmn : Common} {r : ℤ} {c : Cursor}

/-- `decodeDatagram`, once the header is read. -/
theorem decodeDatagram_ok_iff
    (hcommon : decodeCommon out udpBuf ⟨0, udpBuf.length⟩ = .ok (cmn, r, c))
    (h : Remains udpBuf c rest) (junk : ℕ → UInt16) :
    (∃ m, decodeDatagram out junk udpBuf = .ok m)
      ↔ ¬ (0 ≤ r ∧ cmn.pc = 5 ∧ TokenOverflow rest) := by
  rw [decodeDatagram, hcommon]
  simp only [ok_bind]
  by_cases hr : r < 0
  · rw [if_pos hr]
    exact ⟨fun _ hn => by omega, fun _ => ⟨_, rfl⟩⟩
  · rw [if_neg hr, ← kindOf_eq_registerSuper_iff]
    cases hkind : kindOf cmn.pc with
    | none => simp
    | some kind =>
        dsimp only
        rw [bind_ok_iff, decodeBody_ok_iff h]
        simp [not_lt.mp hr]

/-- A datagram faults when it is a REGISTER_SUPER with a token that overflows, and only then. -/
theorem processUdp_ok_iff
    (hcommon : decodeCommon out udpBuf ⟨0, udpBuf.length⟩ = .ok (cmn, r, c))
    (h : Remains udpBuf c rest) (junk : ℕ → UInt16) :
    (∃ m, processUdp out junk udpBuf = .ok m)
      ↔ ¬ (0 ≤ r ∧ ¬ cmn.ttl < 1 ∧ cmn.pc = 5 ∧ TokenOverflow rest) := by
  rw [processUdp, hcommon]
  simp only [ok_bind]
  by_cases hr : r < 0
  · rw [if_pos hr]
    exact ⟨fun _ hn => by omega, fun _ => ⟨_, rfl⟩⟩
  rw [if_neg hr]
  by_cases httl : cmn.ttl < 1
  · rw [if_pos httl]
    exact ⟨fun _ hn => hn.2.1 httl, fun _ => ⟨_, rfl⟩⟩
  rw [if_neg httl, ← kindOf_eq_registerSuper_iff]
  split
  · rename_i hkind
    rw [bind_ok_iff, decodeBody_ok_iff h, hkind]
    simp
  · rename_i hkind
    rw [bind_ok_iff, decodeBody_ok_iff h, hkind]
    simp [not_lt.mp hr, httl]
  · rename_i hsuper
    exact ⟨fun _ hn => hsuper hn.2.2.1, fun _ => ⟨_, rfl⟩⟩

/-- A peer decodes no `REGISTER_SUPER`. -/
theorem readFromIPSocket_ok
    (hcommon : decodeCommon out udpBuf ⟨0, udpBuf.length⟩ = .ok (cmn, r, c))
    (h : Remains udpBuf c rest) (communityName : Bytes 16) (snWait : Bool)
    (junk : ℕ → UInt16) :
    ∃ m, readFromIPSocket communityName snWait out junk udpBuf = .ok m := by
  have hbody : ∀ kind, kind ≠ .registerSuper →
      ∃ m, (decodeBody kind junk cmn udpBuf c >>= fun v => Except.ok (some v.1)) = .ok m := by
    intro kind hkind
    rw [bind_ok_iff, decodeBody_ok_iff h]
    exact fun hn => hkind hn.1
  unfold readFromIPSocket
  by_cases hnil : udpBuf.length = 0
  · rw [if_pos hnil]
    exact ⟨_, rfl⟩
  rw [if_neg hnil, hcommon]
  simp only [ok_bind]
  by_cases hr : r < 0
  · rw [if_pos hr]
    exact ⟨_, rfl⟩
  rw [if_neg hr]
  by_cases hcom : cmn.community ≠ communityName
  · rw [if_pos hcom]
    exact ⟨_, rfl⟩
  rw [if_neg hcom]
  split
  · exact hbody _ (by decide)
  · exact hbody _ (by decide)
  · split
    · exact hbody _ (by decide)
    · exact ⟨_, rfl⟩
  · exact ⟨_, rfl⟩

end Receive

theorem remains_start (udpBuf : List UInt8) : Remains udpBuf ⟨0, udpBuf.length⟩ udpBuf where
  inside := Nat.zero_le _
  drop := rfl
  rem := rfl

/-- Another version: `decode_common` returns -1. -/
theorem decodeCommon_version {udpBuf : List UInt8} (hv : udpBuf.getD 0 0 ≠ pktVersion)
    (out : Common) :
    ∃ c rest, decodeCommon out udpBuf ⟨0, udpBuf.length⟩ = .ok (out, -1, c) ∧
      Remains udpBuf c rest := by
  have h := remains_start udpBuf
  cases udpBuf with
  | nil =>
      rw [decodeCommon, decodeUint8_nil h]
      exact ⟨_, _, rfl, h⟩
  | cons b udpBuf =>
      rw [decodeCommon, decodeUint8_cons h]
      refine ⟨_, _, ?_, h.advance (show 1 ≤ (b :: udpBuf).length by simp)⟩
      have hb : b ≠ pktVersion := hv
      simp only [ok_bind]
      rw [if_pos hb]

/-- A whole header of this version. -/
theorem decodeCommon_whole {udpBuf : List UInt8} (hv : udpBuf.getD 0 0 = pktVersion)
    (hlen : 20 ≤ udpBuf.length) (out : Common) :
    ∃ cmn c, decodeCommon out udpBuf ⟨0, udpBuf.length⟩ = .ok (cmn, 20, c) ∧
      Remains udpBuf c (udpBuf.drop 20) ∧ cmn.ttl = udpBuf.getD 1 0 ∧
      cmn.pc = (wordAt udpBuf 2 &&& flagsTypeMask).toUInt32 := by
  have h := remains_start udpBuf
  match udpBuf, hlen with
  | b₀ :: b₁ :: b₂ :: b₃ :: udpBuf, hlen =>
      simp only [List.length_cons] at hlen
      have h₁ : Remains _ _ (b₁ :: b₂ :: b₃ :: udpBuf) := h.advance (n := 1) (by simp)
      have h₂ : Remains _ _ (b₂ :: b₃ :: udpBuf) := h₁.advance (n := 1) (by simp)
      have h₃ : Remains _ _ udpBuf := h₂.advance (n := 2) (by simp)
      have h₄ : Remains _ _ (udpBuf.drop 16) := h₃.advance (n := 16) (by omega)
      rw [decodeCommon, decodeUint8_cons h]
      simp only [ok_bind]
      rw [if_neg (by rw [not_not]; exact hv), decodeUint8_cons h₁]
      simp only [ok_bind]
      rw [decodeUint16_cons h₂]
      simp only [ok_bind]
      rw [decodeBuf_ok h₃ (by omega) le_rfl]
      refine ⟨_, _, rfl, h₄, rfl, rfl⟩

/-- **Decoding stays in bounds for every datagram but the overlong token.**  For every
byte string, whatever the uninitialised records held: the decoders of the types found in
headers fault exactly on the overlong token, `process_udp` exactly when it also gets past
the time-to-live test, and the receive path of a peer never. -/
theorem datagram_decoding_in_bounds (udpBuf : List UInt8) (out : Common) (junk : ℕ → UInt16)
    (communityName : Bytes 16) (snWait : Bool) :
    ((∃ m, decodeDatagram out junk udpBuf = .ok m) ↔ ¬ OverlongToken udpBuf) ∧
      ((∃ m, processUdp out junk udpBuf = .ok m)
        ↔ ¬ (OverlongToken udpBuf ∧ ¬ udpBuf.getD 1 0 < 1)) ∧
      ∃ m, readFromIPSocket communityName snWait out junk udpBuf = .ok m := by
  by_cases hv : udpBuf.getD 0 0 = pktVersion
  · by_cases hlen : udpBuf.length < 20
    · -- a cut header leaves too few bytes for any overlong token
      obtain ⟨cmn, r, c, rest, hcommon, hrest, hn⟩ :=
        decodeCommon_stays (remains_start udpBuf) (Nat.le_of_lt hlen) out
      have htok : ¬ TokenOverflow rest := by
        unfold TokenOverflow
        omega
      have hover : ¬ OverlongToken udpBuf := by
        unfold OverlongToken
        omega
      rw [decodeDatagram_ok_iff hcommon hrest, processUdp_ok_iff hcommon hrest]
      exact ⟨⟨fun _ => hover, fun _ hn => htok hn.2.2⟩,
        ⟨fun _ hn => hover hn.1, fun _ hn => htok hn.2.2.2⟩,
        readFromIPSocket_ok hcommon hrest communityName snWait junk⟩
    · -- a whole header: the body starts at byte 20
      obtain ⟨cmn, c, hcommon, hrest, httl, hpc⟩ :=
        decodeCommon_whole hv (not_lt.mp hlen) out
      have hover : OverlongToken udpBuf ↔ cmn.pc = 5 ∧ TokenOverflow (udpBuf.drop 20) := by
        have hword : wordAt (udpBuf.drop 20) 6 = wordAt udpBuf 26 := by
          simp [wordAt, List.getElem?_drop]
        rw [OverlongToken, TokenOverflow, hpc, hword, List.length_drop]
        constructor
        · rintro ⟨-, hsuper, hbig, hall⟩
          exact ⟨hsuper, hbig, by omega⟩
        · rintro ⟨hsuper, hbig, hall⟩
          exact ⟨hv, hsuper, hbig, by omega⟩
      rw [decodeDatagram_ok_iff hcommon hrest, processUdp_ok_iff hcommon hrest, hover, httl]
      refine ⟨?_, ?_, readFromIPSocket_ok hcommon hrest communityName snWait junk⟩
      · simp
      · constructor
        · rintro hn ⟨⟨hsuper, htok⟩, ht⟩
          exact hn ⟨by decide, ht, hsuper, htok⟩
        · rintro hn ⟨-, ht, hsuper, htok⟩
          exact hn ⟨⟨hsuper, htok⟩, ht⟩
  · obtain ⟨c, rest, hcommon, hrest⟩ := decodeCommon_version hv out
    have hover : ¬ OverlongToken udpBuf := fun ho => hv ho.1
    rw [decodeDatagram_ok_iff hcommon hrest, processUdp_ok_iff hcommon hrest]
    exact ⟨⟨fun _ => hover, fun _ hn => absurd hn.1 (by decide)⟩,
      ⟨fun _ hn => hover hn.1, fun _ hn => absurd hn.1 (by decide)⟩,
      readFromIPSocket_ok hcommon hrest communityName snWait junk⟩

/-- A `REGISTER_SUPER` of 61 bytes whose `toksize` is 33. -/
def overlongDatagram : List UInt8 :=
  [2, 2, 0, 5] ++ List.replicate 16 97 ++ List.replicate 4 1 ++ [0, 0, 0, 33]
    ++ List.replicate 33 65

/-- The last byte of its token is written past the field. -/
theorem overlong_token_overflows :
    processUdp superAckHeader (fun _ => 0) overlongDatagram = .error .writePast ∧
      decodeDatagram superAckHeader (fun _ => 0) overlongDatagram = .error .writePast :=
  ⟨rfl, rfl⟩

end Zevent.Upunch
