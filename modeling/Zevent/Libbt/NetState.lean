/-
# The receiving side of a peer (`libbt/btpd/net.c`)

`net_read` takes whatever the socket has and gives `net_state` the bytes it waits for:
`p->in.st_bytes` of them, in the state `p->in.state`.  What is left of a read is kept in
`p->in.buf` until the rest has come.

The peers are those with `p->ptype == BT_PEER`, which begin with a handshake.  A web server
(`HTTP_PEER`) is read by branches of its own, `HTTP_RESP` and `P2SP_RESP` among them: its header
has to come in one read, and nothing here is about it.

What a message does to the rest of the program is in `peer.c` and behind it.  Here that is a
parameter, `Upper`: what `net.c` looks at, and what the functions `peer_on_…` do.

`net_read_chunks` is about every stream of a `BT_PEER`, also of one that does not keep to the
protocol: the sizes of the reads do not matter.  `messages_received` is about the messages
`net_buf.c` makes: each one arrives as what it is.
-/
import Mathlib.Tactic
import Zevent.Lib.Demand
import Zevent.Libbt.NetBuf

namespace Zevent.Libbt.Btpd

open Zevent.Znet (decBe32 encBe32 decBe32_encBe32)

/-! ## The code -/

/-- `enum input_state` of a `BT_PEER`: all but `HTTP_RESP`. -/
inductive InputState
  | shakePstr | shakeInfo | shakeId | btpMsgsize | btpMsghead | btpPiecemeta | btpMsgbody
deriving DecidableEq, Repr

/-- The size a state is entered with; that of a body differs. -/
def InputState.size : InputState → Option ℕ
  | .shakePstr => some 28
  | .shakeInfo => some 20
  | .shakeId => some 20
  | .btpMsgsize => some 4
  | .btpMsghead => some 1
  | .btpPiecemeta => some 8
  | .btpMsgbody => none

/-- `p->in`, without its buffer. -/
structure In where
  msgLen : ℕ
  msgNum : ℕ
  pcIndex : ℕ
  pcBegin : ℕ
  state : InputState
  stBytes : ℕ
  sized : ∀ n, state.size = some n → stBytes = n

/-- `peer_set_in_state`. -/
def peerSetInState (i : In) (state : InputState) (size : ℕ)
    (h : ∀ n, state.size = some n → size = n) : In :=
  { i with state := state, stBytes := size, sized := h }

/-- `p->in` of a new peer. -/
def In.start : In where
  msgLen := 0
  msgNum := 0
  pcIndex := 0
  pcBegin := 0
  state := .shakePstr
  stBytes := 28
  sized := fun _ h => Option.some.inj h

/-- The functions `peer_on_…` that a message leads to, with their arguments. -/
inductive Call
  | keepalive | choke | unchoke | interest | uninterest
  | have_ (index : ℕ)
  | bitfield (field : List UInt8)
  | request (index begin_ length : ℕ)
  | cancel (index begin_ length : ℕ)
  | piece (index begin_ length : ℕ) (data : List UInt8)
deriving DecidableEq

/-- The rest of the program: what `net.c` looks at, and what the functions it calls do.  The
torrent of a peer does not change once the peer has one. -/
structure Upper (σ : Type*) where
  incoming : σ → Bool
  torrentByHash : σ → List UInt8 → Option σ
  hash : σ → List UInt8
  hasPeer : σ → List UInt8 → Bool
  peerId : List UInt8
  onShake : σ → List UInt8 → σ
  pWants : σ → Bool
  iChoke : σ → Bool
  peerNpieces : σ → ℕ
  npieces : σ → ℕ
  hasPiece : σ → ℕ → Bool
  pieceSize : σ → ℕ → ℕ
  call : σ → Call → σ
  call_npieces : ∀ s c, npieces (call s c) = npieces s

variable {σ : Type*} (u : Upper σ)

/-- `net_mh_ok`. -/
def netMhOk (s : σ) (mlen msgNum : ℕ) : Bool :=
  if msgNum = msgChoke ∨ msgNum = msgUnchoke ∨ msgNum = msgInterest ∨ msgNum = msgUninterest then
    decide (mlen = 1)
  else if msgNum = msgHave then decide (mlen = 5)
  else if msgNum = msgBitfield then decide (mlen = fieldLen (u.npieces s) + 1)
  else if msgNum = msgRequest ∨ msgNum = msgCancel then decide (mlen = 13)
  else if msgNum = msgPiece then decide (mlen ≤ pieceBlocklen + 9)
  else false

/-- A request `net_dispatch_msg` does not take; the sum is one of `uint32_t`. -/
def badRequest (s : σ) (index begin_ length : ℕ) : Bool :=
  decide (length > pieceBlocklen) || decide (index ≥ u.npieces s) || !u.hasPiece s index
    || decide ((begin_ + length) % 2 ^ 32 > u.pieceSize s index)

/-- `net_dispatch_msg`; `none` when it does not return 0.  Its `default` is not reached, as
`net_mh_ok` lets no other number pass. -/
def netDispatchMsg (i : In) (s : σ) (buf : List UInt8) : Option σ :=
  if i.msgNum = msgChoke then some (u.call s .choke)
  else if i.msgNum = msgUnchoke then some (u.call s .unchoke)
  else if i.msgNum = msgInterest then some (u.call s .interest)
  else if i.msgNum = msgUninterest then some (u.call s .uninterest)
  else if i.msgNum = msgHave then some (u.call s (.have_ (decBe32 buf)))
  else if i.msgNum = msgBitfield then
    if u.peerNpieces s = 0 then some (u.call s (.bitfield buf)) else none
  else if i.msgNum = msgRequest then
    if u.pWants s = true ∧ u.iChoke s = false then
      let index := decBe32 buf
      let begin_ := decBe32 (buf.drop 4)
      let length := decBe32 (buf.drop 8)
      if badRequest u s index begin_ length then none
      else some (u.call s (.request index begin_ length))
    else some s
  else if i.msgNum = msgCancel then
    some (u.call s (.cancel (decBe32 buf) (decBe32 (buf.drop 4)) (decBe32 (buf.drop 8))))
  else if i.msgNum = msgPiece then
    some (u.call s (.piece i.pcIndex i.pcBegin ((i.msgLen + (2 ^ 32 - 9)) % 2 ^ 32) buf))
  else none

/-- `net_state`; `none` is `goto bad`, which kills the peer. -/
def netState (x : In × σ) (buf : List UInt8) : Option (In × σ) :=
  let (i, s) := x
  match i.state with
  | .shakePstr =>
      if buf.take 20 = pstr then
        some (peerSetInState i .shakeInfo 20 (by simp [InputState.size]), s)
      else none
  | .shakeInfo =>
      if u.incoming s then
        match u.torrentByHash s buf with
        | none => none
        | some s => some (peerSetInState i .shakeId 20 (by simp [InputState.size]), s)
      else if buf = u.hash s then some (peerSetInState i .shakeId 20 (by simp [InputState.size]), s)
      else none
  | .shakeId =>
      if u.hasPeer s buf = true ∨ buf = u.peerId then none
      else some (peerSetInState i .btpMsgsize 4 (by simp [InputState.size]), u.onShake s buf)
  | .btpMsgsize =>
      let i := { i with msgLen := decBe32 buf }
      if i.msgLen = 0 then some (i, u.call s .keepalive)
      else some (peerSetInState i .btpMsghead 1 (by simp [InputState.size]), s)
  | .btpMsghead =>
      let i := { i with msgNum := (buf.headD 0).toNat }
      if netMhOk u s i.msgLen i.msgNum = false then none
      else if i.msgLen = 1 then
        match netDispatchMsg u i s buf with
        | none => none
        | some s => some (peerSetInState i .btpMsgsize 4 (by simp [InputState.size]), s)
      else if i.msgNum = msgPiece then
        some (peerSetInState i .btpPiecemeta 8 (by simp [InputState.size]), s)
      else some (peerSetInState i .btpMsgbody (i.msgLen - 1) (by simp [InputState.size]), s)
  | .btpPiecemeta =>
      let i := { i with pcIndex := decBe32 buf, pcBegin := decBe32 (buf.drop 4) }
      some (peerSetInState i .btpMsgbody ((i.msgLen + (2 ^ 32 - 9)) % 2 ^ 32)
        (by simp [InputState.size]), s)
  | .btpMsgbody =>
      match netDispatchMsg u i s buf with
      | none => none
      | some s => some (peerSetInState i .btpMsgsize 4 (by simp [InputState.size]), s)

/-- A state that is entered with nothing to read is that of an empty body, and the next one
reads a length. -/
theorem netState_progress (x y : In × σ) (hneed : x.1.stBytes = 0)
    (h : netState u x [] = some y) : 0 < y.1.stBytes := by
  obtain ⟨i, s⟩ := x
  have hbody : i.state = .btpMsgbody := by
    have hsized := i.sized
    change i.stBytes = 0 at hneed
    rw [hneed] at hsized
    cases hstate : i.state with
    | btpMsgbody => rfl
    | shakePstr => exact absurd (hsized 28 (by rw [hstate]; rfl)) (by omega)
    | shakeInfo => exact absurd (hsized 20 (by rw [hstate]; rfl)) (by omega)
    | shakeId => exact absurd (hsized 20 (by rw [hstate]; rfl)) (by omega)
    | btpMsgsize => exact absurd (hsized 4 (by rw [hstate]; rfl)) (by omega)
    | btpMsghead => exact absurd (hsized 1 (by rw [hstate]; rfl)) (by omega)
    | btpPiecemeta => exact absurd (hsized 8 (by rw [hstate]; rfl)) (by omega)
  simp only [netState, hbody] at h
  split at h
  · exact absurd h (by simp)
  · rw [← Option.some.inj h]
    exact Nat.succ_pos 3

/-- `net_state` as a reader of the stream. -/
def reader : Demand.Reader (In × σ) UInt8 where
  need := fun x => x.1.stBytes
  take := netState u
  progress := netState_progress u

/-- A peer that is connected; `buf` is `p->in.buf` up to `p->in.off`, and empty when the
pointer is `NULL`. -/
structure Peer (σ : Type*) where
  inn : In
  upper : σ
  buf : List UInt8
  short : buf.length < inn.stBytes

/-- The loop of `net_read` over what is in the local buffer, and what it does with the rest. -/
def netReadLoop (x : In × σ) (l : List UInt8) : Option (Peer σ) :=
  match h : (reader u).drain x l with
  | none => none
  | some (x, rest) =>
      some { inn := x.1, upper := x.2, buf := rest, short := (reader u).drain_rest h }

/-- `rest` of `net_read`: what is missing in `p->in.buf`. -/
def Peer.rest (p : Peer σ) : ℕ := if p.buf = [] then 0 else p.inn.stBytes - p.buf.length

/-- Too few bytes stay too few. -/
theorem Peer.short_append {p : Peer σ} {data : List UInt8} (h : data.length < p.rest) :
    (p.buf ++ data).length < p.inn.stBytes := by
  rw [List.length_append]
  rw [rest] at h
  split at h <;> omega

/-- `net_read`, when the socket gives it `data`, which is some bytes and no more than there is
room for.  The first of them go behind those in `p->in.buf`. -/
def netRead (p : Peer σ) (data : List UInt8) : Option (Peer σ) :=
  if p.rest > 0 then
    if h : data.length < p.rest then
      some { p with buf := p.buf ++ data, short := Peer.short_append h }
    else
      match netState u (p.inn, p.upper) (p.buf ++ data.take p.rest) with
      | none => none
      | some x => netReadLoop u x (data.drop p.rest)
  else netReadLoop u (p.inn, p.upper) data

/-- `net_read` after `net_read`, as long as the peer lives. -/
def netReads (p : Peer σ) (chunks : List (List UInt8)) : Option (Peer σ) :=
  chunks.foldlM (netRead u) p

/-- A peer that was just connected. -/
def Peer.start (s : σ) : Peer σ where
  inn := In.start
  upper := s
  buf := []
  short := Nat.succ_pos 27

/-! ## Reads of any size -/

variable {u}

/-- What the reader is left with. -/
def Peer.left (p : Peer σ) : (In × σ) × List UInt8 := ((p.inn, p.upper), p.buf)

/-- The loop of `net_read` drains the bytes it has. -/
theorem netReadLoop_left (x : In × σ) (l : List UInt8) :
    (netReadLoop u x l).map Peer.left = (reader u).drain x l := by
  rw [netReadLoop]
  split
  · rename_i hnone
    rw [hnone, Option.map_none]
  · rename_i x' rest hsome
    exact hsome.symm

/-- **A read** gives the reader what it waits with and what has come. -/
theorem netRead_left (p : Peer σ) (data : List UInt8) :
    (netRead u p data).map Peer.left = (reader u).feed p.left data := by
  have hneed : (reader u).need (p.inn, p.upper) = p.inn.stBytes := rfl
  have hshort := p.short
  show _ = (reader u).drain (p.inn, p.upper) (p.buf ++ data)
  rw [netRead]
  by_cases hbuf : p.buf = []
  · have hrest : ¬ p.rest > 0 := by
      rw [Peer.rest, if_pos hbuf]
      exact lt_irrefl 0
    rw [if_neg hrest, hbuf, List.nil_append]
    exact netReadLoop_left _ _
  · have hrest : p.rest = p.inn.stBytes - p.buf.length := by rw [Peer.rest, if_neg hbuf]
    rw [if_pos (by omega)]
    split
    · -- not enough yet
      rename_i hlt
      rw [(reader u).drain_of_lt (by rw [hneed]; exact Peer.short_append hlt), Option.map_some]
      rfl
    · rename_i hle
      have hall : p.buf ++ data = (p.buf ++ data.take p.rest) ++ data.drop p.rest := by
        rw [List.append_assoc, List.take_append_drop]
      rw [hall, (reader u).drain_take (by
        rw [hneed, List.length_append, List.length_take]; omega)]
      show _ = (netState u (p.inn, p.upper) (p.buf ++ data.take p.rest)).bind _
      rcases netState u (p.inn, p.upper) (p.buf ++ data.take p.rest) with _ | x
      · rfl
      · exact netReadLoop_left x _

theorem Peer.left_injective : Function.Injective (Peer.left (σ := σ)) := by
  rintro ⟨i, s, b, h⟩ ⟨i', s', b', h'⟩ heq
  simp only [left, Prod.mk.injEq] at heq
  obtain ⟨⟨rfl, rfl⟩, rfl⟩ := heq
  rfl

/-- Reads of any size come out where the reader does. -/
theorem netReads_left (p : Peer σ) (chunks : List (List UInt8)) :
    (netReads u p chunks).map Peer.left
      = (reader u).drain (p.inn, p.upper) (p.buf ++ chunks.flatten) := by
  rw [← (reader u).feed_chunks chunks p.short]
  show _ = chunks.foldlM (reader u).feed p.left
  rw [netReads]
  induction chunks generalizing p with
  | nil => rfl
  | cons data chunks ih =>
      rw [List.foldlM_cons, List.foldlM_cons, ← netRead_left]
      rcases netRead u p data with _ | q
      · rfl
      · exact ih q

/-! ## A message -/

section Messages

variable {i : In} {s : σ}

/-- What a message is to the receiver. -/
def Msg.call : Msg → Call
  | .keepalive => .keepalive
  | .choke => .choke
  | .unchoke => .unchoke
  | .interest => .interest
  | .uninterest => .uninterest
  | .have_ index => .have_ index
  | .bitfield field => .bitfield field
  | .request index begin_ length => .request index begin_ length
  | .cancel index begin_ length => .cancel index begin_ length
  | .piece index begin_ data => .piece index begin_ data.length data

variable (u)

/-- What a message does: a bit field is taken as the first word about pieces only, and a request
when it is wanted and asks for what there is; the others are taken as they are. -/
def Msg.deliver (s : σ) (m : Msg) : Option σ :=
  match m with
  | .bitfield _ => if u.peerNpieces s = 0 then some (u.call s m.call) else none
  | .request index begin_ length =>
      if u.pWants s = true ∧ u.iChoke s = false then
        if badRequest u s index begin_ length then none else some (u.call s m.call)
      else some s
  | _ => some (u.call s m.call)

variable {u}

/-- What a state waits for stands at the front. -/
theorem drain_state {x : In × σ} {buf : List UInt8} (h : buf.length = x.1.stBytes)
    (l : List UInt8) :
    (reader u).drain x (buf ++ l) = (netState u x buf).bind fun y => (reader u).drain y l :=
  (reader u).drain_take h

/-- Back to the state that reads a length, with the length and the number of the last message. -/
def In.reset (i : In) (msgLen msgNum : ℕ) : In :=
  peerSetInState { i with msgLen := msgLen, msgNum := msgNum } .btpMsgsize 4
    (by simp [InputState.size])

/-- A length that is not zero. -/
theorem drain_size (hi : i.state = .btpMsgsize) {n : ℕ} (hn : n < 2 ^ 32) (hpos : n ≠ 0)
    (l : List UInt8) :
    (reader u).drain (i, s) (encBe32 n ++ l)
      = (reader u).drain (peerSetInState { i with msgLen := n } .btpMsghead 1
          (by simp [InputState.size]), s) l := by
  have hneed : i.stBytes = 4 := i.sized 4 (by rw [hi]; rfl)
  rw [drain_state (by rw [hneed]; rfl)]
  simp only [netState, hi, decBe32_encBe32_nil hn, if_neg hpos, Option.bind_some]

/-- What dispatching looks at in `p->in`. -/
theorem netDispatchMsg_congr {i j : In} (hlen : i.msgLen = j.msgLen) (hnum : i.msgNum = j.msgNum)
    (hindex : i.pcIndex = j.pcIndex) (hbegin : i.pcBegin = j.pcBegin) (buf : List UInt8) :
    netDispatchMsg u i s buf = netDispatchMsg u j s buf := by
  unfold netDispatchMsg
  rw [hlen, hnum, hindex, hbegin]

/-- A message that is its number. -/
theorem drain_short (hi : i.state = .btpMsgsize) {num : ℕ} (hnum : num < 256)
    (hok : netMhOk u s 1 num = true) (l : List UInt8) :
    (reader u).drain (i, s) (nbCreateOnesized num ++ l)
      = (netDispatchMsg u (i.reset 1 num) s [UInt8.ofNat num]).bind
          fun s' => (reader u).drain (i.reset 1 num, s') l := by
  have hnat : (UInt8.ofNat num).toNat = num := UInt8.toNat_ofNat_of_lt' hnum
  rw [nbCreateOnesized, List.append_assoc, drain_size hi (by omega) (by omega), drain_state rfl]
  simp only [netState, peerSetInState, List.headD_cons, hnat, hok, Bool.true_eq_false, if_false,
    if_true]
  conv_lhs => rw [netDispatchMsg_congr (j := i.reset 1 num) (by rfl) (by rfl) (by rfl) (by rfl)]
  rcases netDispatchMsg u (i.reset 1 num) s [UInt8.ofNat num] with _ | s'
  · rfl
  · rfl

/-- A message of a number and a body that is not a piece. -/
theorem drain_long (hi : i.state = .btpMsgsize) {num : ℕ} (hnum : num < 256)
    (hpiece : num ≠ msgPiece) {body : List UInt8} (hpos : 0 < body.length)
    (hlen : body.length + 1 < 2 ^ 32) (hok : netMhOk u s (body.length + 1) num = true)
    (l : List UInt8) :
    (reader u).drain (i, s) (encBe32 (body.length + 1) ++ ([UInt8.ofNat num] ++ (body ++ l)))
      = (netDispatchMsg u (i.reset (body.length + 1) num) s body).bind
          fun s' => (reader u).drain (i.reset (body.length + 1) num, s') l := by
  have hnat : (UInt8.ofNat num).toNat = num := UInt8.toNat_ofNat_of_lt' hnum
  rw [drain_size hi hlen (by omega), drain_state rfl]
  simp only [netState, peerSetInState, List.headD_cons, hnat, hok, Bool.true_eq_false, if_false,
    if_neg (show body.length + 1 ≠ 1 by omega), if_neg hpiece, Option.bind_some]
  rw [drain_state rfl]
  simp only [netState, peerSetInState]
  conv_lhs => rw [netDispatchMsg_congr (j := i.reset (body.length + 1) num) (by rfl) (by rfl)
    (by rfl) (by rfl)]
  rcases netDispatchMsg u (i.reset (body.length + 1) num) s body with _ | s'
  · rfl
  · rfl

/-- A piece: its head, and the block behind it. -/
theorem drain_piece (hi : i.state = .btpMsgsize) {index begin_ : ℕ} {data : List UInt8}
    (hindex : index < 2 ^ 32) (hbegin : begin_ < 2 ^ 32) (hdata : data.length ≤ pieceBlocklen)
    (l : List UInt8) :
    (reader u).drain (i, s) (nbCreatePiece index begin_ data.length ++ (data ++ l))
      = (reader u).drain ({ i.reset (9 + data.length) msgPiece with
            pcIndex := index, pcBegin := begin_ },
          u.call s (.piece index begin_ data.length data)) l := by
  have hlen : 9 + data.length < 2 ^ 32 := by
    rw [pieceBlocklen] at hdata
    omega
  have hwrap : (9 + data.length + (2 ^ 32 - 9)) % 2 ^ 32 = data.length := by omega
  have hnat : (UInt8.ofNat msgPiece).toNat = msgPiece := rfl
  have hok : netMhOk u s (9 + data.length) msgPiece = true := by
    show decide (9 + data.length ≤ pieceBlocklen + 9) = true
    rw [decide_eq_true_eq]
    omega
  have hhead : (encBe32 index ++ encBe32 begin_).length = 8 := rfl
  have hmeta : decBe32 ((encBe32 index ++ encBe32 begin_).drop 4) = begin_ := by
    rw [List.drop_left' (length_encBe32 index), decBe32_encBe32_nil hbegin]
  rw [nbCreatePiece, List.append_assoc, List.append_assoc, List.append_assoc,
    drain_size hi hlen (by omega), drain_state rfl]
  simp only [netState, peerSetInState, List.headD_cons, hnat, hok, Bool.true_eq_false, if_false,
    if_neg (show 9 + data.length ≠ 1 by omega), if_true, Option.bind_some]
  rw [← List.append_assoc, drain_state]
  · simp only [netState, peerSetInState, decBe32_encBe32 hindex, hmeta, Option.bind_some]
    rw [drain_state]
    · simp only [netState, peerSetInState]
      have hdispatch : ∀ j : In, j.msgNum = msgPiece → j.msgLen = 9 + data.length →
          netDispatchMsg u j s data
            = some (u.call s (.piece j.pcIndex j.pcBegin data.length data)) := by
        intro j hnum hmsg
        unfold netDispatchMsg
        rw [hnum, hmsg, hwrap]
        rfl
      rw [hdispatch _ rfl rfl]
      rfl
    · exact hwrap.symm
  · exact hhead

/-- `p->in` after a message. -/
def Msg.after (i : In) : Msg → In
  | .keepalive => { i with msgLen := 0 }
  | .choke => i.reset 1 msgChoke
  | .unchoke => i.reset 1 msgUnchoke
  | .interest => i.reset 1 msgInterest
  | .uninterest => i.reset 1 msgUninterest
  | .have_ _ => i.reset 5 msgHave
  | .bitfield field => i.reset (field.length + 1) msgBitfield
  | .request _ _ _ => i.reset 13 msgRequest
  | .cancel _ _ _ => i.reset 13 msgCancel
  | .piece index begin_ data =>
      { i.reset (9 + data.length) msgPiece with pcIndex := index, pcBegin := begin_ }

/-- Behind a message the size of the next one is awaited. -/
theorem Msg.after_state (hi : i.state = .btpMsgsize) (m : Msg) :
    (m.after i).state = .btpMsgsize := by
  cases m with
  | keepalive => exact hi
  | _ => rfl

/-- The body of a request, or of its cancellation. -/
def three (index begin_ length : ℕ) : List UInt8 :=
  encBe32 index ++ (encBe32 begin_ ++ encBe32 length)

/-- The three words of a request are read back. -/
theorem three_dec {index begin_ length : ℕ} (hindex : index < 2 ^ 32) (hbegin : begin_ < 2 ^ 32)
    (hlength : length < 2 ^ 32) :
    decBe32 (three index begin_ length) = index
      ∧ decBe32 ((three index begin_ length).drop 4) = begin_
      ∧ decBe32 ((three index begin_ length).drop 8) = length := by
  refine ⟨decBe32_encBe32 hindex _, decBe32_drop hbegin _ _, ?_⟩
  have hdrop : (three index begin_ length).drop 8 = encBe32 length := rfl
  rw [hdrop, decBe32_encBe32_nil hlength]

/-- **A message arrives as what it is.** -/
theorem message_received (hi : i.state = .btpMsgsize) {m : Msg} (hm : m.Ok (u.npieces s))
    (l : List UInt8) :
    (reader u).drain (i, s) (m.bytes ++ l)
      = (m.deliver u s).bind fun s' => (reader u).drain (m.after i, s') l := by
  cases m with
  | keepalive =>
      obtain ⟨msgLen, msgNum, pcIndex, pcBegin, state, stBytes, sized⟩ := i
      obtain rfl : state = .btpMsgsize := hi
      obtain rfl : stBytes = 4 := sized 4 rfl
      rw [Msg.bytes, nbCreateKeepalive, drain_state rfl]
      simp only [netState, decBe32_encBe32_nil (show 0 < 2 ^ 32 by omega), if_true]
      rfl
  | choke =>
      rw [Msg.bytes, drain_short hi (by decide) rfl]
      rfl
  | unchoke =>
      rw [Msg.bytes, drain_short hi (by decide) rfl]
      rfl
  | interest =>
      rw [Msg.bytes, drain_short hi (by decide) rfl]
      rfl
  | uninterest =>
      rw [Msg.bytes, drain_short hi (by decide) rfl]
      rfl
  | have_ index =>
      have hbody := drain_long (u := u) (s := s) hi (show msgHave < 256 by decide) (by decide)
        (show 0 < (encBe32 index).length by rw [length_encBe32]; omega)
        (by rw [length_encBe32]; omega) rfl l
      rw [Msg.bytes, nbCreateHave, List.append_assoc, List.append_assoc]
      refine hbody.trans ?_
      show Option.bind (some (u.call s (.have_ (decBe32 (encBe32 index))))) _ = _
      rw [decBe32_encBe32_nil hm]
      rfl
  | bitfield field =>
      obtain ⟨hfield, hpos, hlt⟩ := hm
      have hlen : 0 < field.length ∧ field.length + 1 < 2 ^ 32 := by
        rw [hfield, fieldLen]
        omega
      have hok : netMhOk u s (field.length + 1) msgBitfield = true := by
        rw [hfield]
        exact decide_eq_true rfl
      have hbody := drain_long (u := u) (s := s) hi (show msgBitfield < 256 by decide) (by decide)
        hlen.1 hlen.2 hok l
      rw [Msg.bytes, nbCreateBitfield, List.append_assoc, List.append_assoc]
      exact hbody
  | request index begin_ length =>
      obtain ⟨hindex, hbegin, hlength⟩ := hm
      obtain ⟨h₁, h₂, h₃⟩ := three_dec hindex hbegin hlength
      have hbody := drain_long (u := u) (s := s) hi (show msgRequest < 256 by decide) (by decide)
        (show 0 < (three index begin_ length).length from Nat.succ_pos 11)
        (show 12 + 1 < 2 ^ 32 by omega) rfl l
      have hbytes : (Msg.request index begin_ length).bytes ++ l
          = encBe32 13 ++ ([UInt8.ofNat msgRequest] ++ (three index begin_ length ++ l)) := by
        simp only [Msg.bytes, nbCreateRequest, three, List.append_assoc]
      rw [hbytes]
      refine hbody.trans ?_
      congr 1
      show (if u.pWants s = true ∧ u.iChoke s = false then _ else some s) = _
      rw [h₁, h₂, h₃]
      rfl
  | cancel index begin_ length =>
      obtain ⟨hindex, hbegin, hlength⟩ := hm
      obtain ⟨h₁, h₂, h₃⟩ := three_dec hindex hbegin hlength
      have hbody := drain_long (u := u) (s := s) hi (show msgCancel < 256 by decide) (by decide)
        (show 0 < (three index begin_ length).length from Nat.succ_pos 11)
        (show 12 + 1 < 2 ^ 32 by omega) rfl l
      have hbytes : (Msg.cancel index begin_ length).bytes ++ l
          = encBe32 13 ++ ([UInt8.ofNat msgCancel] ++ (three index begin_ length ++ l)) := by
        simp only [Msg.bytes, nbCreateCancel, three, List.append_assoc]
      rw [hbytes]
      refine hbody.trans ?_
      show Option.bind (some (u.call s (.cancel (decBe32 (three index begin_ length))
        (decBe32 ((three index begin_ length).drop 4))
        (decBe32 ((three index begin_ length).drop 8))))) _ = _
      rw [h₁, h₂, h₃]
      rfl
  | piece index begin_ data =>
      rw [Msg.bytes, List.append_assoc, drain_piece hi hm.1 hm.2.1 hm.2.2]
      rfl

/-! ## A stream of messages -/

/-- No message changes the number of pieces. -/
theorem Upper.npieces_deliver {m : Msg} {s' : σ} (h : m.deliver u s = some s') :
    u.npieces s' = u.npieces s := by
  have hcall : ∀ c, some (u.call s c) = some s' → u.npieces s' = u.npieces s := by
    intro c hc
    rw [← Option.some.inj hc, u.call_npieces]
  cases m with
  | bitfield field =>
      rw [Msg.deliver] at h
      split at h
      · exact hcall _ h
      · exact absurd h (by simp)
  | request index begin_ length =>
      rw [Msg.deliver] at h
      split at h
      · split at h
        · exact absurd h (by simp)
        · exact hcall _ h
      · rw [← Option.some.inj h]
  | _ => exact hcall _ h

/-- The messages one after the other. -/
def deliverAll (u : Upper σ) (s : σ) (msgs : List Msg) : Option σ :=
  msgs.foldlM (fun s m => m.deliver u s) s

/-- **The messages arrive in their order.** -/
theorem drain_messages (hi : i.state = .btpMsgsize) {msgs : List Msg}
    (hok : ∀ m ∈ msgs, m.Ok (u.npieces s)) (l : List UInt8) :
    (reader u).drain (i, s) (msgs.flatMap Msg.bytes ++ l)
      = (deliverAll u s msgs).bind fun s' => (reader u).drain (msgs.foldl Msg.after i, s') l := by
  induction msgs generalizing i s with
  | nil => rfl
  | cons m msgs ih =>
      rw [List.flatMap_cons, List.append_assoc, message_received hi (hok m List.mem_cons_self)]
      show _ = Option.bind (Option.bind (m.deliver u s) fun s => deliverAll u s msgs) _
      rcases hm : m.deliver u s with _ | s'
      · rfl
      · rw [Option.bind_some, Option.bind_some]
        refine ih (m.after_state hi) fun m' hm' => ?_
        rw [Upper.npieces_deliver hm]
        exact hok m' (List.mem_cons_of_mem _ hm')

theorem foldl_after_state (hi : i.state = .btpMsgsize) (msgs : List Msg) :
    (msgs.foldl Msg.after i).state = .btpMsgsize := by
  induction msgs generalizing i with
  | nil => exact hi
  | cons m msgs ih => exact ih (m.after_state hi)

/-- The reader waits, and has told nobody of what it has. -/
def Quiet (u : Upper σ) (x : In × σ) (l : List UInt8) : Prop :=
  ∃ j rest, (reader u).drain x l = some ((j, x.2), rest)

theorem quiet_of_lt {x : In × σ} {l : List UInt8} (h : l.length < x.1.stBytes) : Quiet u x l :=
  ⟨x.1, l, (reader u).drain_of_lt h⟩

/-- A beginning that is long enough begins with what the whole begins with. -/
theorem split_front {α : Type*} {a b front more : List α} (h : a ++ b = front ++ more)
    (hle : a.length ≤ front.length) : ∃ c, front = a ++ c ∧ b = c ++ more := by
  rcases List.append_eq_append_iff.mp h with ⟨c, hfront, hb⟩ | ⟨c, ha, hmore⟩
  · exact ⟨c, hfront, hb⟩
  · have hc : c = [] := by
      rw [ha, List.length_append] at hle
      exact List.length_eq_zero_iff.mp (by omega)
    subst hc
    exact ⟨[], by rw [ha]; simp, by rw [hmore]; simp⟩

/-- The beginning of a message, up to its number. -/
theorem quiet_size (hi : i.state = .btpMsgsize) {n : ℕ} (hn : n < 2 ^ 32) (hpos : n ≠ 0)
    {body front more : List UInt8} (h : encBe32 n ++ body = front ++ more)
    (hrest : ∀ c, c ≠ [] → body = c ++ more → Quiet u (i, s) (encBe32 n ++ c)) :
    Quiet u (i, s) front := by
  have hneed : i.stBytes = 4 := i.sized 4 (by rw [hi]; rfl)
  rcases Nat.lt_or_ge front.length 4 with hlt | hle
  · exact quiet_of_lt (by rw [hneed]; exact hlt)
  · obtain ⟨c, rfl, hbody⟩ := split_front h hle
    by_cases hc : c = []
    · subst hc
      rw [Quiet, drain_size hi hn hpos]
      exact quiet_of_lt Nat.one_pos
    · exact hrest c hc hbody

/-- The beginning of a message that is no piece. -/
theorem quiet_long (hi : i.state = .btpMsgsize) {num : ℕ} (hnum : num < 256)
    (hpiece : num ≠ msgPiece) (body : List UInt8) (hlen : body.length + 1 < 2 ^ 32)
    (hok : netMhOk u s (body.length + 1) num = true) {front more : List UInt8}
    (hmore : more ≠ [])
    (h : encBe32 (body.length + 1) ++ ([UInt8.ofNat num] ++ body) = front ++ more) :
    Quiet u (i, s) front := by
  have hnat : (UInt8.ofNat num).toNat = num := UInt8.toNat_ofNat_of_lt' hnum
  refine quiet_size hi hlen (by omega) h fun c hc hbody => ?_
  obtain ⟨c', rfl, rfl⟩ := split_front hbody (List.length_pos_iff.mpr hc)
  have hpos := List.length_pos_iff.mpr hmore
  rw [List.length_append] at hlen hok
  rw [Quiet, List.length_append, drain_size hi hlen (by omega), drain_state rfl]
  simp only [netState, peerSetInState, List.headD_cons, hnat, hok, Bool.true_eq_false, if_false,
    if_neg (show c'.length + more.length + 1 ≠ 1 by omega), if_neg hpiece, Option.bind_some]
  exact quiet_of_lt (show c'.length < c'.length + more.length + 1 - 1 by omega)

/-- The beginning of a piece. -/
theorem quiet_piece (hi : i.state = .btpMsgsize) {index begin_ : ℕ} {data : List UInt8}
    (hdata : data.length ≤ pieceBlocklen) {front more : List UInt8} (hmore : more ≠ [])
    (h : (Msg.piece index begin_ data).bytes = front ++ more) : Quiet u (i, s) front := by
  have hlen : 9 + data.length < 2 ^ 32 := by
    rw [pieceBlocklen] at hdata
    omega
  have hwrap : (9 + data.length + (2 ^ 32 - 9)) % 2 ^ 32 = data.length := by omega
  have hnat : (UInt8.ofNat msgPiece).toNat = msgPiece := rfl
  have hok : netMhOk u s (9 + data.length) msgPiece = true := by
    show decide (9 + data.length ≤ pieceBlocklen + 9) = true
    rw [decide_eq_true_eq]
    omega
  rw [Msg.bytes, nbCreatePiece, List.append_assoc, List.append_assoc, List.append_assoc] at h
  refine quiet_size hi hlen (by omega) h fun c hc hbody => ?_
  obtain ⟨c', rfl, hrest⟩ := split_front hbody (List.length_pos_iff.mpr hc)
  have hnumber : (reader u).drain (i, s)
        (encBe32 (9 + data.length) ++ ([UInt8.ofNat msgPiece] ++ c'))
      = (reader u).drain (peerSetInState { i with msgLen := 9 + data.length, msgNum := msgPiece }
          .btpPiecemeta 8 (by simp [InputState.size]), s) c' := by
    rw [drain_size hi hlen (by omega), drain_state rfl]
    simp only [netState, peerSetInState, List.headD_cons, hnat, hok, Bool.true_eq_false, if_false,
      if_neg (show 9 + data.length ≠ 1 by omega), if_true, Option.bind_some]
  rw [Quiet, hnumber]
  rcases Nat.lt_or_ge c'.length 8 with hlt | hle
  · exact quiet_of_lt hlt
  · rw [← List.append_assoc] at hrest
    obtain ⟨c'', rfl, rfl⟩ := split_front hrest hle
    have hpos := List.length_pos_iff.mpr hmore
    have hshort : c''.length < (c'' ++ more).length := by
      rw [List.length_append]
      omega
    rw [drain_state]
    · simp only [netState, peerSetInState, Option.bind_some]
      exact quiet_of_lt (hshort.trans_eq hwrap.symm)
    · rfl

/-- **A beginning of a message tells nothing yet.** -/
theorem message_partial (hi : i.state = .btpMsgsize) {m : Msg} (hm : m.Ok (u.npieces s))
    {front more : List UInt8} (hmore : more ≠ []) (h : m.bytes = front ++ more) :
    Quiet u (i, s) front := by
  cases m with
  | keepalive =>
      have hneed : i.stBytes = 4 := i.sized 4 (by rw [hi]; rfl)
      have hlen := congrArg List.length h
      have hpos := List.length_pos_iff.mpr hmore
      rw [List.length_append, Msg.bytes, nbCreateKeepalive, length_encBe32] at hlen
      exact quiet_of_lt (show front.length < i.stBytes by omega)
  | choke =>
      exact quiet_long hi (show msgChoke < 256 by decide) (by decide) [] (by decide) rfl hmore h
  | unchoke =>
      exact quiet_long hi (show msgUnchoke < 256 by decide) (by decide) [] (by decide) rfl hmore h
  | interest =>
      exact quiet_long hi (show msgInterest < 256 by decide) (by decide) [] (by decide) rfl hmore h
  | uninterest =>
      exact quiet_long hi (show msgUninterest < 256 by decide) (by decide) [] (by decide) rfl
        hmore h
  | have_ index =>
      exact quiet_long hi (show msgHave < 256 by decide) (by decide) (encBe32 index)
        (show 4 + 1 < 2 ^ 32 by omega) rfl hmore h
  | bitfield field =>
      obtain ⟨hfield, -, hlt⟩ := hm
      refine quiet_long hi (show msgBitfield < 256 by decide) (by decide) field ?_ ?_ hmore ?_
      · rw [hfield, fieldLen]
        omega
      · rw [hfield]
        exact decide_eq_true rfl
      · rw [← h, Msg.bytes, nbCreateBitfield, List.append_assoc]
  | request index begin_ length =>
      refine quiet_long hi (show msgRequest < 256 by decide) (by decide)
        (three index begin_ length) (show 12 + 1 < 2 ^ 32 by omega) rfl hmore ?_
      rw [← h]
      simp only [Msg.bytes, nbCreateRequest, three, List.append_assoc]
      rfl
  | cancel index begin_ length =>
      refine quiet_long hi (show msgCancel < 256 by decide) (by decide)
        (three index begin_ length) (show 12 + 1 < 2 ^ 32 by omega) rfl hmore ?_
      rw [← h]
      simp only [Msg.bytes, nbCreateCancel, three, List.append_assoc]
      rfl
  | piece index begin_ data => exact quiet_piece hi hm.2.2 hmore h

/-- The bytes are a beginning of a message. -/
def Begins (npieces : ℕ) (front : List UInt8) : Prop :=
  ∃ (m : Msg) (more : List UInt8), m.Ok npieces ∧ more ≠ [] ∧ m.bytes = front ++ more

/-- What the handshake does. -/
def shaken (u : Upper σ) (s : σ) (hash id : List UInt8) : Option σ :=
  (if u.incoming s then u.torrentByHash s hash
    else if hash = u.hash s then some s else none).bind fun s =>
      if u.hasPeer s id = true ∨ id = u.peerId then none else some (u.onShake s id)

/-- `p->in` after the handshake. -/
def In.shaken : In := peerSetInState In.start .btpMsgsize 4 (by simp [InputState.size])

/-- **The handshake arrives.** -/
theorem drain_shake {hash id : List UInt8} (hhash : hash.length = 20) (hid : id.length = 20)
    (l : List UInt8) :
    (reader u).drain (In.start, s) (nbCreateShake hash id ++ l)
      = (shaken u s hash id).bind fun s' => (reader u).drain (In.shaken, s') l := by
  have hpstr : (pstr ++ List.replicate 8 0).take 20 = pstr := rfl
  rw [nbCreateShake, List.append_assoc, List.append_assoc, drain_state]
  · simp only [netState, In.start, peerSetInState, hpstr, if_true, Option.bind_some]
    rw [drain_state hhash, shaken]
    simp only [netState, peerSetInState]
    have hlast : ∀ (j : In) (s : σ), j.state = .shakeId → j.msgLen = 0 → j.msgNum = 0 →
        j.pcIndex = 0 → j.pcBegin = 0 →
        (reader u).drain (j, s) (id ++ l)
          = (if u.hasPeer s id = true ∨ id = u.peerId then none else some (u.onShake s id)).bind
              fun s' => (reader u).drain (In.shaken, s') l := by
      rintro ⟨msgLen, msgNum, pcIndex, pcBegin, state, stBytes, sized⟩ s rfl rfl rfl rfl rfl
      obtain rfl : stBytes = 20 := sized 20 rfl
      rw [drain_state hid]
      simp only [netState, peerSetInState]
      split
      · rfl
      · rfl
    by_cases hin : u.incoming s = true
    · rw [if_pos hin, if_pos hin]
      rcases u.torrentByHash s hash with _ | s'
      · rfl
      · exact hlast _ _ rfl rfl rfl rfl rfl
    · rw [if_neg hin, if_neg hin]
      by_cases hsame : hash = u.hash s
      · rw [if_pos hsame, if_pos hsame]
        exact hlast _ _ rfl rfl rfl rfl rfl
      · rw [if_neg hsame, if_neg hsame]
        rfl
  · rfl

theorem npieces_deliverAll {s' : σ} {msgs : List Msg} (h : deliverAll u s msgs = some s') :
    u.npieces s' = u.npieces s := by
  induction msgs generalizing s with
  | nil => rw [Option.some.inj h]
  | cons m msgs ih =>
      change (m.deliver u s).bind (fun s => deliverAll u s msgs) = some s' at h
      rw [Option.bind_eq_some_iff] at h
      obtain ⟨s₁, hm, hrest⟩ := h
      rw [ih hrest, Upper.npieces_deliver hm]

end Messages

/-! ## The results -/

/-- **The sizes of the reads do not matter.**  Whatever a `BT_PEER` sends, and whether it keeps
to the protocol or not: two ways to cut the same bytes into reads come to the same, the same calls
in the same order, the same state of the reader and the same bytes in its buffer, or the same
end of the peer. -/
theorem net_read_chunks (p : Peer σ) {chunks chunks' : List (List UInt8)}
    (h : chunks.flatten = chunks'.flatten) : netReads u p chunks = netReads u p chunks' := by
  apply Option.map_injective Peer.left_injective
  rw [netReads_left, netReads_left, h]

/-- A peer of a torrent with ten pieces that writes down what it is told. -/
def recorder : Upper (List Call) where
  incoming := fun _ => false
  torrentByHash := fun _ _ => none
  hash := fun _ => List.replicate 20 1
  hasPeer := fun _ _ => false
  peerId := List.replicate 20 2
  onShake := fun s _ => s
  pWants := fun _ => true
  iChoke := fun _ => false
  peerNpieces := fun _ => 0
  npieces := fun _ => 10
  hasPiece := fun _ _ => true
  pieceSize := fun _ _ => 2 ^ 18
  call := fun s c => s ++ [c]
  call_npieces := fun _ _ => rfl

/-- A message of one byte that calls itself a piece, in two reads and in one. -/
theorem net_read_chunks_short :
    netReads recorder (Peer.start [])
        [nbCreateShake (List.replicate 20 1) (List.replicate 20 3) ++ [0, 0], [0, 1, 7]]
      = netReads recorder (Peer.start [])
        [nbCreateShake (List.replicate 20 1) (List.replicate 20 3) ++ [0, 0, 0, 1, 7]] :=
  net_read_chunks _ (by simp)

/-- **What is sent is received.**  A handshake, some messages and the beginning of another one
come in reads of any size from a `BT_PEER`.  The handshake is one that is taken (`hshake`), and
the messages fit their fields and the torrent (`Msg.Ok`).  Then the peer has been told all the
messages as what they are and in their order, and nothing else.  What telling does is
`Msg.deliver`: a request that nobody waits for is dropped, and a bad request or a bit field behind
the first word about pieces ends the peer, here as there. -/
theorem messages_received {s s' : σ} {hash id : List UInt8} (hhash : hash.length = 20)
    (hid : id.length = 20) (hshake : shaken u s hash id = some s') {msgs : List Msg}
    (hok : ∀ m ∈ msgs, m.Ok (u.npieces s')) {front : List UInt8}
    (hfront : Begins (u.npieces s') front) {chunks : List (List UInt8)}
    (hstream : chunks.flatten = nbCreateShake hash id ++ (msgs.flatMap Msg.bytes ++ front)) :
    (netReads u (Peer.start s) chunks).map Peer.upper = deliverAll u s' msgs := by
  have hleft : (netReads u (Peer.start s) chunks).map Peer.upper
      = ((netReads u (Peer.start s) chunks).map Peer.left).map fun r => r.1.2 := by
    rw [Option.map_map]
    rfl
  rw [hleft, netReads_left]
  show Option.map _ ((reader u).drain (In.start, s) ([] ++ chunks.flatten)) = _
  rw [List.nil_append, hstream, drain_shake hhash hid, hshake, Option.bind_some,
    drain_messages rfl hok]
  rcases hall : deliverAll u s' msgs with _ | s''
  · rfl
  · obtain ⟨m, more, hm, hmore, hbytes⟩ := hfront
    rw [← npieces_deliverAll hall] at hm
    obtain ⟨j, rest, hquiet⟩ := message_partial (i := msgs.foldl Msg.after In.shaken)
      (foldl_after_state rfl msgs) hm hmore hbytes
    rw [Option.bind_some, hquiet]
    rfl

/-- A bit field, a piece and the beginning of a request, with the bytes one by one. -/
theorem messages_received_one_by_one :
    (netReads recorder (Peer.start [])
        ((nbCreateShake (List.replicate 20 1) (List.replicate 20 3)
          ++ ([Msg.bitfield [255, 192], .piece 3 16384 [1, 2, 3]].flatMap Msg.bytes
            ++ [0, 0, 0, 13, 6])).map fun b => [b])).map Peer.upper
      = some [.bitfield [255, 192], .piece 3 16384 3 [1, 2, 3]] := by
  have hshake : shaken recorder [] (List.replicate 20 1) (List.replicate 20 3) = some [] := rfl
  have hok : ∀ m ∈ [Msg.bitfield [255, 192], .piece 3 16384 [1, 2, 3]],
      m.Ok (recorder.npieces []) := by
    intro m hm
    rcases List.mem_cons.mp hm with rfl | hm
    · exact ⟨rfl, by decide, by decide⟩
    · obtain rfl := List.mem_singleton.mp hm
      exact ⟨by decide, by decide, by decide⟩
  have hfront : Begins (recorder.npieces []) [0, 0, 0, 13, 6] :=
    ⟨.request 0 0 0, List.replicate 12 0, ⟨by decide, by decide, by decide⟩, by decide, rfl⟩
  exact messages_received rfl rfl hshake hok hfront (List.flatMap_singleton' _)

end Zevent.Libbt.Btpd
