/-
# The messages between peers (`libbt/btpd/net_buf.c`, `net.h`)

What the functions `nb_create_…` put into their buffers, and the messages that go over the wire
in these buffers.  Two messages are made of two buffers, a head and what comes behind it: the
piece with its block, and the bit field with its bits.
-/
import Mathlib.Tactic
import Zevent.Znet.Framing

namespace Zevent.Libbt.Btpd

open Zevent.Znet (decBe32 encBe32 decBe32_encBe32)

/-! ## The numbers of the messages -/

/-- `MSG_CHOKE`. -/
def msgChoke : ℕ := 0

/-- `MSG_UNCHOKE`. -/
def msgUnchoke : ℕ := 1

/-- `MSG_INTEREST`. -/
def msgInterest : ℕ := 2

/-- `MSG_UNINTEREST`. -/
def msgUninterest : ℕ := 3

/-- `MSG_HAVE`. -/
def msgHave : ℕ := 4

/-- `MSG_BITFIELD`. -/
def msgBitfield : ℕ := 5

/-- `MSG_REQUEST`. -/
def msgRequest : ℕ := 6

/-- `MSG_PIECE`. -/
def msgPiece : ℕ := 7

/-- `MSG_CANCEL`. -/
def msgCancel : ℕ := 8

/-- `PIECE_BLOCKLEN`. -/
def pieceBlocklen : ℕ := 2 ^ 14

/-! ## The buffers -/

/-- `nb_create_keepalive`. -/
def nbCreateKeepalive : List UInt8 := encBe32 0

/-- `nb_create_onesized`. -/
def nbCreateOnesized (mtype : ℕ) : List UInt8 := encBe32 1 ++ [UInt8.ofNat mtype]

/-- `nb_create_piece`. -/
def nbCreatePiece (index begin_ blen : ℕ) : List UInt8 :=
  encBe32 (9 + blen) ++ [UInt8.ofNat msgPiece] ++ encBe32 index ++ encBe32 begin_

/-- `nb_create_request`. -/
def nbCreateRequest (index begin_ length : ℕ) : List UInt8 :=
  encBe32 13 ++ [UInt8.ofNat msgRequest] ++ encBe32 index ++ encBe32 begin_ ++ encBe32 length

/-- `nb_create_cancel`. -/
def nbCreateCancel (index begin_ length : ℕ) : List UInt8 :=
  encBe32 13 ++ [UInt8.ofNat msgCancel] ++ encBe32 index ++ encBe32 begin_ ++ encBe32 length

/-- `nb_create_have`. -/
def nbCreateHave (index : ℕ) : List UInt8 :=
  encBe32 5 ++ [UInt8.ofNat msgHave] ++ encBe32 index

/-- `nb_create_bitfield`, for a field of `plen` bytes. -/
def nbCreateBitfield (plen : ℕ) : List UInt8 :=
  encBe32 (plen + 1) ++ [UInt8.ofNat msgBitfield]

/-- The text in front of a handshake. -/
def pstr : List UInt8 :=
  [19, 66, 105, 116, 84, 111, 114, 114, 101, 110, 116, 32, 112, 114, 111, 116, 111, 99, 111, 108]

/-- `nb_create_shake`. -/
def nbCreateShake (hash peerId : List UInt8) : List UInt8 :=
  pstr ++ List.replicate 8 0 ++ hash ++ peerId

/-- `ceil(npieces / 8.0)`. -/
def fieldLen (npieces : ℕ) : ℕ := (npieces + 7) / 8

/-! ## The messages -/

/-- A message. -/
inductive Msg
  | keepalive | choke | unchoke | interest | uninterest
  | have_ (index : ℕ)
  | bitfield (field : List UInt8)
  | request (index begin_ length : ℕ)
  | cancel (index begin_ length : ℕ)
  | piece (index begin_ : ℕ) (data : List UInt8)
deriving DecidableEq, Repr

/-- A message on the wire. -/
def Msg.bytes : Msg → List UInt8
  | .keepalive => nbCreateKeepalive
  | .choke => nbCreateOnesized msgChoke
  | .unchoke => nbCreateOnesized msgUnchoke
  | .interest => nbCreateOnesized msgInterest
  | .uninterest => nbCreateOnesized msgUninterest
  | .have_ index => nbCreateHave index
  | .bitfield field => nbCreateBitfield field.length ++ field
  | .request index begin_ length => nbCreateRequest index begin_ length
  | .cancel index begin_ length => nbCreateCancel index begin_ length
  | .piece index begin_ data => nbCreatePiece index begin_ data.length ++ data

/-- The numbers of a message are those of `uint32_t`, its field is that of a torrent with
`npieces` pieces, at least one, and its block is no larger than a block. -/
def Msg.Ok (npieces : ℕ) : Msg → Prop
  | .have_ index => index < 2 ^ 32
  | .bitfield field => field.length = fieldLen npieces ∧ 0 < npieces ∧ npieces < 2 ^ 32
  | .request index begin_ length => index < 2 ^ 32 ∧ begin_ < 2 ^ 32 ∧ length < 2 ^ 32
  | .cancel index begin_ length => index < 2 ^ 32 ∧ begin_ < 2 ^ 32 ∧ length < 2 ^ 32
  | .piece index begin_ data => index < 2 ^ 32 ∧ begin_ < 2 ^ 32 ∧ data.length ≤ pieceBlocklen
  | _ => True

theorem length_encBe32 (n : ℕ) : (encBe32 n).length = 4 := rfl

/-- The number behind some others. -/
theorem decBe32_drop {n : ℕ} (h : n < 2 ^ 32) (m : ℕ) (l : List UInt8) :
    decBe32 ((encBe32 m ++ (encBe32 n ++ l)).drop 4) = n := by
  rw [List.drop_left' (length_encBe32 m), decBe32_encBe32 h]

/-- A word of 32 bits is read back. -/
theorem decBe32_encBe32_nil {n : ℕ} (h : n < 2 ^ 32) : decBe32 (encBe32 n) = n := by
  have := decBe32_encBe32 h []
  rwa [List.append_nil] at this

end Zevent.Libbt.Btpd
