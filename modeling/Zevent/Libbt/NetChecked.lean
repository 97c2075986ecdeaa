/-
# What `net.c` lets through

Whatever a `BT_PEER` sends, the functions of `peer.c` are called with what `net_mh_ok` and
`net_dispatch_msg` have checked (`Checked`): a bit field of the size of the torrent's, as the
first word about pieces, a request for a piece there is, and of a block at most, and a block with
the length its message says.

Three things are let through that a reader of the checks may not expect.  The sum of a request's
begin and length is one of `uint32_t`, so a begin near `2 ^ 32` passes.  A piece that is only its
number passes too, with a length of `2 ^ 32 - 8`, which is the length of no request.  And the
index of a `MSG_HAVE` is not checked here, nor what a `MSG_CANCEL` names: `Checked` says nothing
about them.

A web server (`HTTP_PEER`) is read and dispatched by other branches, which are not here: the
offsets its answers lead to are not checked like these.

`calls_checked` is the rule for every stream of a `BT_PEER`: what every checked call keeps,
every read keeps.
-/
import Zevent.Libbt.NetState

namespace Zevent.Libbt.Btpd

open Zevent.Znet (decBe32)

variable {σ : Type*} {u : Upper σ}

/-- What is known of the arguments of a call. -/
def Checked (u : Upper σ) (s : σ) : Call → Prop
  | .bitfield field => u.peerNpieces s = 0
      ∧ (field.length = fieldLen (u.npieces s) ∨ fieldLen (u.npieces s) = 0)
  | .request index begin_ length => u.pWants s = true ∧ u.iChoke s = false
      ∧ length ≤ pieceBlocklen ∧ index < u.npieces s ∧ u.hasPiece s index = true
      ∧ (begin_ + length ≤ u.pieceSize s index ∨ 2 ^ 32 ≤ begin_ + length)
  | .piece _ _ length data => length = data.length ∨ length = 2 ^ 32 - 8
  | _ => True

/-- What the state of the reader says about the message it is in. -/
structure InOk (u : Upper σ) (x : In × σ) : Prop where
  pieceMeta : x.1.state = .btpPiecemeta → x.1.msgNum = msgPiece
  body : x.1.state = .btpMsgbody →
    (x.1.msgNum = msgPiece ∧ x.1.stBytes = (x.1.msgLen + (2 ^ 32 - 9)) % 2 ^ 32)
      ∨ (x.1.msgNum ≠ msgPiece ∧ netMhOk u x.2 x.1.msgLen x.1.msgNum = true
        ∧ x.1.stBytes = x.1.msgLen - 1)

/-- A state in which nothing is known of a message. -/
theorem inOk_of_state {x : In × σ} (hmeta : x.1.state ≠ .btpPiecemeta)
    (hbody : x.1.state ≠ .btpMsgbody) : InOk u x :=
  ⟨fun h => absurd h hmeta, fun h => absurd h hbody⟩

/-- A bit field that passes has the size of the torrent's. -/
theorem netMhOk_bitfield {s : σ} {mlen : ℕ} (h : netMhOk u s mlen msgBitfield = true) :
    mlen = fieldLen (u.npieces s) + 1 :=
  of_decide_eq_true h

theorem badRequest_eq_false {s : σ} {index begin_ length : ℕ}
    (h : badRequest u s index begin_ length = false) :
    length ≤ pieceBlocklen ∧ index < u.npieces s ∧ u.hasPiece s index = true
      ∧ (begin_ + length ≤ u.pieceSize s index ∨ 2 ^ 32 ≤ begin_ + length) := by
  simp only [badRequest, Bool.or_eq_false_iff, decide_eq_false_iff_not, Bool.not_eq_false'] at h
  obtain ⟨⟨⟨hlen, hindex⟩, hhas⟩, hsum⟩ := h
  refine ⟨by omega, by omega, hhas, ?_⟩
  rcases Nat.lt_or_ge (begin_ + length) (2 ^ 32) with hlt | hge
  · rw [Nat.mod_eq_of_lt hlt] at hsum
    exact .inl (by omega)
  · exact .inr hge

/-- **Dispatching makes a checked call, or none.** -/
theorem netDispatchMsg_checked {i : In} {s s' : σ} {buf : List UInt8}
    (hbuf : (i.msgNum = msgPiece ∧ (buf.length = (i.msgLen + (2 ^ 32 - 9)) % 2 ^ 32 ∨ i.msgLen = 1))
      ∨ (i.msgNum ≠ msgPiece ∧ netMhOk u s i.msgLen i.msgNum = true
        ∧ (buf.length = i.msgLen - 1 ∨ i.msgLen = 1)))
    (h : netDispatchMsg u i s buf = some s') :
    s' = s ∨ ∃ c, Checked u s c ∧ s' = u.call s c := by
  have hmade : ∀ c, some (u.call s c) = some s' → Checked u s c →
      s' = s ∨ ∃ c, Checked u s c ∧ s' = u.call s c :=
    fun c heq hc => .inr ⟨c, hc, (Option.some.inj heq).symm⟩
  unfold netDispatchMsg at h
  split_ifs at h with h₀ h₁ h₂ h₃ h₄ h₅ hfirst h₆ hwant h₈ h₇
  · exact hmade _ h trivial
  · exact hmade _ h trivial
  · exact hmade _ h trivial
  · exact hmade _ h trivial
  · exact hmade _ h trivial
  · -- a bit field
    refine hmade _ h ⟨hfirst, ?_⟩
    rcases hbuf with ⟨hpiece, -⟩ | ⟨-, hok, hlen⟩
    · rw [h₅] at hpiece
      exact absurd hpiece (by decide)
    · rw [h₅] at hok
      have hmlen := netMhOk_bitfield hok
      omega
  · -- a request
    simp only at h
    split at h
    · exact absurd h (by simp)
    · rename_i hgood
      rw [Bool.not_eq_true] at hgood
      exact hmade _ h ⟨hwant.1, hwant.2, badRequest_eq_false hgood⟩
  · exact .inl (Option.some.inj h).symm
  · exact hmade _ h trivial
  · -- a piece
    refine hmade _ h ?_
    rcases hbuf with ⟨-, hlen | hone⟩ | ⟨hne, -, -⟩
    · exact .inl hlen.symm
    · rw [hone]
      exact .inr rfl
    · exact absurd h₇ hne

/-- What the calls and the handshake keep. -/
structure Keeps (u : Upper σ) (P : σ → Prop) : Prop where
  call : ∀ s c, P s → Checked u s c → P (u.call s c)
  torrentByHash : ∀ s hash s', P s → u.torrentByHash s hash = some s' → P s'
  onShake : ∀ s id, P s → P (u.onShake s id)

/-- **Step lemma.** -/
theorem netState_checked {P : σ → Prop} (hP : Keeps u P) {x y : In × σ} {buf : List UInt8}
    (hx : InOk u x ∧ P x.2) (hbuf : buf.length = x.1.stBytes) (h : netState u x buf = some y) :
    InOk u y ∧ P y.2 := by
  obtain ⟨i, s⟩ := x
  obtain ⟨hin, hs⟩ := hx
  have hdispatch : ∀ {j : In} {s'}, netDispatchMsg u j s buf = some s' →
      ((j.msgNum = msgPiece ∧ (buf.length = (j.msgLen + (2 ^ 32 - 9)) % 2 ^ 32 ∨ j.msgLen = 1))
        ∨ (j.msgNum ≠ msgPiece ∧ netMhOk u s j.msgLen j.msgNum = true
          ∧ (buf.length = j.msgLen - 1 ∨ j.msgLen = 1))) → P s' := by
    intro j s' hd hj
    rcases netDispatchMsg_checked hj hd with rfl | ⟨c, hc, rfl⟩
    · exact hs
    · exact hP.call s c hs hc
  have hplain : ∀ (state : InputState) (j : In) (n : ℕ) hsize (s' : σ), P s' →
      state ≠ .btpPiecemeta → state ≠ .btpMsgbody →
      InOk u (peerSetInState j state n hsize, s') ∧ P s' :=
    fun state j n hsize s' hs' hmeta hbody => ⟨inOk_of_state hmeta hbody, hs'⟩
  simp only [netState] at h
  split at h
  · -- the text of the handshake
    split at h
    · rw [← Option.some.inj h]
      exact hplain _ _ _ _ _ hs (by decide) (by decide)
    · exact absurd h (by simp)
  · -- the hash
    split at h
    · split at h
      · exact absurd h (by simp)
      · rename_i s' htorrent
        rw [← Option.some.inj h]
        exact hplain _ _ _ _ _ (hP.torrentByHash s buf s' hs htorrent) (by decide) (by decide)
    · split at h
      · rw [← Option.some.inj h]
        exact hplain _ _ _ _ _ hs (by decide) (by decide)
      · exact absurd h (by simp)
  · -- the id
    split at h
    · exact absurd h (by simp)
    · rw [← Option.some.inj h]
      exact hplain _ _ _ _ _ (hP.onShake s buf hs) (by decide) (by decide)
  · -- a length
    rename_i hstate
    split at h
    · rw [← Option.some.inj h]
      refine ⟨inOk_of_state ?_ ?_, hP.call s _ hs trivial⟩
      · show i.state ≠ _
        rw [hstate]
        decide
      · show i.state ≠ _
        rw [hstate]
        decide
    · rw [← Option.some.inj h]
      exact hplain _ _ _ _ _ hs (by decide) (by decide)
  · -- a number
    split at h
    · exact absurd h (by simp)
    · rename_i hok
      rw [Bool.not_eq_false] at hok
      split at h
      · rename_i hone
        split at h
        · exact absurd h (by simp)
        · rename_i s' hd
          rw [← Option.some.inj h]
          refine hplain _ _ _ _ _ (hdispatch hd ?_) (by decide) (by decide)
          by_cases hpiece : (buf.headD 0).toNat = msgPiece
          · exact .inl ⟨hpiece, .inr hone⟩
          · exact .inr ⟨hpiece, hok, .inr hone⟩
      · split at h
        · rename_i hpiece
          rw [← Option.some.inj h]
          exact ⟨⟨fun _ => hpiece, fun hbody => InputState.noConfusion hbody⟩, hs⟩
        · rename_i hpiece
          rw [← Option.some.inj h]
          exact ⟨⟨fun hmeta => InputState.noConfusion hmeta,
            fun _ => .inr ⟨hpiece, hok, rfl⟩⟩, hs⟩
  · -- what a piece is of
    rename_i hstate
    rw [← Option.some.inj h]
    exact ⟨⟨fun hmeta => InputState.noConfusion hmeta,
      fun _ => .inl ⟨hin.pieceMeta hstate, rfl⟩⟩, hs⟩
  · -- a body
    rename_i hstate
    split at h
    · exact absurd h (by simp)
    · rename_i s' hd
      rw [← Option.some.inj h]
      refine hplain _ _ _ _ _ (hdispatch hd ?_) (by decide) (by decide)
      rcases hin.body hstate with ⟨hpiece, hsize⟩ | ⟨hpiece, hok, hsize⟩
      · exact .inl ⟨hpiece, .inl (hbuf.trans hsize)⟩
      · exact .inr ⟨hpiece, hok, .inl (hbuf.trans hsize)⟩

/-- **Whatever a `BT_PEER` sends, only checked calls are made.**  What holds of the program at the
start, and is kept by every call with checked arguments and by the handshake, holds after every
series of reads, whether the peer keeps to the protocol or not. -/
theorem calls_checked {P : σ → Prop} (hP : Keeps u P) {s : σ} (hs : P s)
    (chunks : List (List UInt8)) {p : Peer σ} (h : netReads u (Peer.start s) chunks = some p) :
    P p.upper := by
  have hdrain : (reader u).drain (In.start, s) chunks.flatten = some (p.left.1, p.left.2) := by
    have hleft := netReads_left (u := u) (Peer.start s) chunks
    rw [h] at hleft
    exact hleft.symm
  have hend := (reader u).drain_invariant (fun x => InOk u x ∧ P x.2)
    (fun x l y hx hl htake => netState_checked hP hx hl htake)
    ⟨inOk_of_state (fun hmeta => InputState.noConfusion hmeta)
      (fun hbody => InputState.noConfusion hbody), hs⟩ hdrain
  exact hend.2

/-- What the recorder keeps. -/
theorem keeps_recorder : Keeps recorder fun log => ∀ c ∈ log, Checked recorder [] c where
  call := by
    intro s c hs hc c' hc'
    rcases List.mem_append.mp hc' with hc' | hc'
    · exact hs c' hc'
    · rw [List.mem_singleton.mp hc']
      cases c <;> exact hc
  torrentByHash := fun _ _ _ _ h => absurd h (by simp [recorder])
  onShake := fun _ _ hs => hs

/-- A request behind the handshake, in one read. -/
theorem calls_checked_request :
    ∃ p, netReads recorder (Peer.start []) [nbCreateShake (List.replicate 20 1)
        (List.replicate 20 3) ++ ([Msg.request 3 0 16384].flatMap Msg.bytes ++ [])] = some p
      ∧ p.upper = [.request 3 0 16384] ∧ ∀ c ∈ p.upper, Checked recorder [] c := by
  have hok : ∀ m ∈ [Msg.request 3 0 16384], m.Ok (recorder.npieces []) := by
    intro m hm
    rw [List.mem_singleton.mp hm]
    exact ⟨by decide, by decide, by decide⟩
  have hdrain : (reader recorder).drain (In.start, []) ([] ++ [nbCreateShake (List.replicate 20 1)
        (List.replicate 20 3) ++ ([Msg.request 3 0 16384].flatMap Msg.bytes ++ [])].flatten)
      = some (([Msg.request 3 0 16384].foldl Msg.after In.shaken, [.request 3 0 16384]), []) := by
    rw [List.nil_append, List.flatten_singleton, drain_shake rfl rfl]
    show Option.bind (some []) _ = _
    rw [Option.bind_some, drain_messages rfl hok]
    show Option.bind (some [Call.request 3 0 16384]) _ = _
    rw [Option.bind_some, (reader recorder).drain_of_lt]
    exact Nat.succ_pos 3
  have hleft := (netReads_left (u := recorder) (Peer.start []) _).trans hdrain
  obtain ⟨p, hp, hpleft⟩ := Option.map_eq_some_iff.mp hleft
  refine ⟨p, hp, congrArg (fun r => r.1.2) hpleft, ?_⟩
  exact calls_checked keeps_recorder (by simp) _ hp

end Zevent.Libbt.Btpd
