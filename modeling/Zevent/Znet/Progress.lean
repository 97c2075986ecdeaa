/-
# Progress of the frame loop (`default_process_func`, `peer_read_cb`, `iobuf_consumed`)

`default_process_func` adds the length of the header to a length of 32 bits that a peer chose,
in 32 bits.  For the last four lengths the sum wraps to less than the header: the loop of
`peer_read_cb` hands out and consumes three bytes, or two, or one; or it hands out nothing and
consumes nothing, for ever.  Nor does `iobuf_consumed` consume anything of a buffer that did
not get a bigger block.

`frame_loop_progresses_iff` is the exact condition under which every round of the loop that
does not stop consumes a header at least, and the loop returns.
-/
import Zevent.Znet.Framing

namespace Zevent.Znet

/-! ## The property and its condition -/

/-- The data is inside the block, and its length is one of 32 bits. -/
structure Iobuf.Inside (iob : Iobuf) : Prop where
  block : iob.skip + iob.off ≤ iob.base.length
  short : iob.off < 2 ^ 32

/-- One round of the loop, when it does not stop. -/
def Goes (alloc : Bool) (c c' : Conn) : Prop :=
  ∃ off c₁ iob, defaultProcessFunc c.recvbuf.data (c.recvbuf.off % 2 ^ 32) = some off
    ∧ off ≤ c.recvbuf.off ∧ deliver alloc c off = .ok c₁ ∧ c₁.recvbuf.consumed off = .ok iob
    ∧ c' = { c₁ with recvbuf := iob }

/-- A round has consumed at least a header, and at most what there was. -/
def Consumes (c c' : Conn) : Prop :=
  ∃ n, headerLen ≤ n ∧ n ≤ c.recvbuf.off ∧ c'.recvbuf.off = c.recvbuf.off - n
    ∧ c'.recvbuf.data = c.recvbuf.data.drop n

/-- Every round of the loop that does not stop consumes, and the loop returns. -/
structure Progresses (alloc : Bool) (c : Conn) : Prop where
  consumes : ∀ c' c'', Relation.ReflTransGen (Goes alloc) c c' → Goes alloc c' c'' →
    Consumes c' c''
  returns : ∃ fuel r, processLoop alloc fuel c = .ok r

/-- The frames with these payloads. -/
def frames (payloads : List (List UInt8)) : List UInt8 := payloads.flatMap frameBytes

/-- The condition.  Behind any number of complete frames, a length that is there is none of the
last four; and when there is a complete frame the buffer is not one that did not get its block,
and the frames go to `msg_func` or into blocks that there are, and whose size does not wrap. -/
structure Steady (alloc : Bool) (c : Conn) : Prop where
  length_lt : ∀ done rest, c.recvbuf.data = frames done ++ rest → headerLen ≤ rest.length →
    decBe32 rest < 2 ^ 32 - headerLen
  usable : ∀ done rest, c.recvbuf.data = frames done ++ rest → done ≠ [] →
    c.recvbuf.error = false
      ∧ (c.msgFunc = true ∨ alloc = true ∧ ∀ x ∈ done, (frameBytes x).length + 1 < 2 ^ 32)

/-! ## The front of the buffer -/

section Front

variable {alloc : Bool} {c c' : Conn} {off : ℕ}

theorem Iobuf.Inside.length_data {iob : Iobuf} (h : iob.Inside) : iob.data.length = iob.off := by
  have hblock := h.block
  simp only [data, List.length_take, List.length_drop]
  omega

/-- Bytes are taken off the front of a buffer. -/
theorem Iobuf.Inside.skipped {iob : Iobuf} (h : iob.Inside) (hle : off ≤ iob.off) :
    ({ iob with skip := iob.skip + off, off := iob.off - off } : Iobuf).Inside
      ∧ ({ iob with skip := iob.skip + off, off := iob.off - off } : Iobuf).data
        = iob.data.drop off := by
  have hblock := h.block
  have hshort := h.short
  refine ⟨⟨?_, ?_⟩, ?_⟩
  · simp only
    omega
  · simp only
    omega
  · rw [data, data, List.drop_take, List.drop_drop]

/-- The first frame, then the others. -/
theorem frames_cons (x : List UInt8) (l : List (List UInt8)) :
    frames (x :: l) = frameBytes x ++ frames l :=
  List.flatMap_cons

/-- What `default_process_func` answers. -/
theorem defaultProcessFunc_eq_some {data : List UInt8} {len : ℕ} :
    defaultProcessFunc data len = some off
      ↔ headerLen ≤ len ∧ off = (decBe32 data + headerLen) % 2 ^ 32 ∧ off ≤ len := by
  rw [defaultProcessFunc]
  dsimp only
  split_ifs with hshort hwait
  · exact ⟨fun h => (by cases h), fun h => absurd h.1 (by omega)⟩
  · refine ⟨fun h => (by cases h), ?_⟩
    rintro ⟨-, rfl, hle⟩
    omega
  · rw [Option.some_inj]
    constructor
    · rintro rfl
      exact ⟨by omega, rfl, by omega⟩
    · rintro ⟨-, rfl, -⟩
      rfl

theorem decBe32_lt (data : List UInt8) : decBe32 data < 2 ^ 32 := by
  have hlt : ∀ i, (data.getD i 0).toNat < 256 := fun i => UInt8.toNat_lt _
  have h₀ := hlt 0
  have h₁ := hlt 1
  have h₂ := hlt 2
  have h₃ := hlt 3
  rw [decBe32]
  omega

/-- The frame at the front is the one its header counts. -/
theorem frames_cons_inj {n : ℕ} {x data rest : List UInt8} {l : List (List UInt8)}
    (hn : n < 2 ^ 32) (hlen : data.length < 2 ^ 32)
    (h : encBe32 n ++ data = frames (x :: l) ++ rest) :
    n ≤ data.length ∧ x = data.take n ∧ data.drop n = frames l ++ rest := by
  rw [frames_cons, frameBytes, List.append_assoc, List.append_assoc] at h
  have hx : x.length ≤ data.length := by
    have hboth := congrArg List.length h
    simp only [List.length_append, encBe32, List.length_cons] at hboth
    omega
  have hxn : x.length = n := by
    have hdec := congrArg decBe32 h
    rwa [decBe32_encBe32 hn, decBe32_encBe32 (by omega), eq_comm] at hdec
  rw [hxn, List.append_cancel_left_eq] at h
  subst h
  rw [← hxn, List.take_left, List.drop_left]
  exact ⟨hx, rfl, rfl⟩

/-- The header is the encoding of the length it is read as. -/
theorem encBe32_decBe32 {data : List UInt8} (h : headerLen ≤ data.length) :
    encBe32 (decBe32 data) = data.take headerLen := by
  obtain ⟨a, b, c, d, l, rfl⟩ : ∃ a b c d l, data = a :: b :: c :: d :: l := by
    rcases data with _ | ⟨a, _ | ⟨b, _ | ⟨c, _ | ⟨d, l⟩⟩⟩⟩
    all_goals first | exact ⟨a, b, c, d, l, rfl⟩ | (simp [headerLen] at h)
  have hbyte : ∀ (n : ℕ) (x : UInt8), n % 256 = x.toNat → UInt8.ofNat n = x := by
    intro n x hn
    rw [← UInt8.toNat_inj, UInt8.toNat_ofNat']
    exact hn
  have ha := a.toNat_lt
  have hb := b.toNat_lt
  have hc := c.toNat_lt
  have hd := d.toNat_lt
  simp only [decBe32, encBe32, List.getD_cons_zero, List.getD_cons_succ, headerLen,
    List.take_succ_cons, List.take_zero]
  rw [hbyte _ a (by omega), hbyte _ b (by omega), hbyte _ c (by omega), hbyte _ d (by omega)]

/-- A complete frame at the front. -/
theorem first_frame {data : List UInt8} (hle : decBe32 data + headerLen ≤ data.length) :
    ∃ x rest, data = frameBytes x ++ rest ∧ (frameBytes x).length = decBe32 data + headerLen := by
  have hlen : ((data.drop headerLen).take (decBe32 data)).length = decBe32 data := by
    rw [List.length_take, List.length_drop]
    omega
  refine ⟨(data.drop headerLen).take (decBe32 data), data.drop (decBe32 data + headerLen), ?_, ?_⟩
  · rw [frameBytes, hlen, encBe32_decBe32 (by omega), List.append_assoc, Nat.add_comm,
      ← List.drop_drop, List.take_append_drop, List.take_append_drop]
  · rw [length_frameBytes, hlen, Nat.add_comm]

/-- Delivering leaves the buffer alone. -/
theorem deliver_recvbuf {c₁ : Conn} (h : deliver alloc c off = .ok c₁) :
    c₁.recvbuf = c.recvbuf ∧ c₁.msgFunc = c.msgFunc := by
  rw [deliver] at h
  split_ifs at h
  · rw [← Except.ok.inj h]
    exact ⟨rfl, rfl⟩
  · split at h
    · cases h
    · rename_i block _
      cases hcopy : bcopy (c.recvbuf.data.take off) block 0 with
      | error t =>
          rw [hcopy] at h
          cases h
      | ok buf =>
          rw [hcopy] at h
          rw [← Except.ok.inj h]
          exact ⟨rfl, rfl⟩

/-- When a message can be handed out. -/
theorem deliver_iff (hlen : off ≤ c.recvbuf.data.length) (hlt : off < 2 ^ 32) :
    (∃ c₁, deliver alloc c off = .ok c₁) ↔ c.msgFunc = true ∨ alloc = true ∧ off + 1 < 2 ^ 32 := by
  have htake : (c.recvbuf.data.take off).length = off := by
    rw [List.length_take]
    omega
  rw [deliver]
  cases c.msgFunc with
  | true => exact ⟨fun _ => .inl rfl, fun _ => ⟨_, rfl⟩⟩
  | false =>
      cases alloc with
      | false => simp [mmalloc]
      | true =>
          simp only [mmalloc, if_true, Nat.mod_mod, Bool.false_eq_true, if_false, false_or,
            true_and, bcopy, htake, List.length_replicate, Nat.zero_add]
          split
          · rename_i hfits
            refine ⟨fun _ => ?_, fun _ => ⟨_, rfl⟩⟩
            by_contra hwrap
            rw [show off + 1 = 2 ^ 32 by omega, Nat.mod_self] at hfits
            omega
          · rename_i hfits
            constructor
            · rintro ⟨c₁, hc₁⟩
              cases hc₁
            · intro hshort
              rw [Nat.mod_eq_of_lt hshort] at hfits
              omega

/-- **What a round that goes on has done.** -/
theorem Goes.spec (hin : c.recvbuf.Inside) (h : Goes alloc c c') :
    ∃ off, defaultProcessFunc c.recvbuf.data c.recvbuf.off = some off ∧ off ≤ c.recvbuf.off
      ∧ c'.msgFunc = c.msgFunc ∧ (c.msgFunc = true ∨ alloc = true ∧ off + 1 < 2 ^ 32)
      ∧ c'.recvbuf = if c.recvbuf.error then c.recvbuf
        else { c.recvbuf with skip := c.recvbuf.skip + off, off := c.recvbuf.off - off } := by
  obtain ⟨off, c₁, iob, hfound, hle, hdeliver, hconsumed, rfl⟩ := h
  have hshort := hin.short
  rw [Nat.mod_eq_of_lt hshort] at hfound
  obtain ⟨hrecvbuf, hmsgFunc⟩ := deliver_recvbuf hdeliver
  refine ⟨off, hfound, hle, hmsgFunc, ?_, ?_⟩
  · exact (deliver_iff (by rw [hin.length_data]; exact hle) (by omega)).mp ⟨c₁, hdeliver⟩
  · rw [hrecvbuf, Iobuf.consumed, if_pos hle] at hconsumed
    simp only
    split_ifs at hconsumed ⊢
    · exact (Except.ok.inj hconsumed).symm
    · exact (Except.ok.inj hconsumed).symm

/-- A frame that can be handed on is. -/
theorem goes_of (hin : c.recvbuf.Inside)
    (hfound : defaultProcessFunc c.recvbuf.data c.recvbuf.off = some off)
    (hhanded : c.msgFunc = true ∨ alloc = true ∧ off + 1 < 2 ^ 32) : ∃ c', Goes alloc c c' := by
  have hshort := hin.short
  have hle := (defaultProcessFunc_eq_some.mp hfound).2.2
  obtain ⟨c₁, hdeliver⟩ :=
    (deliver_iff (by rw [hin.length_data]; exact hle) (by omega)).mpr hhanded
  have hconsumed : ∃ iob, c₁.recvbuf.consumed off = .ok iob := by
    rw [(deliver_recvbuf hdeliver).1, Iobuf.consumed, if_pos hle]
    split_ifs
    · exact ⟨_, rfl⟩
    · exact ⟨_, rfl⟩
  obtain ⟨iob, hiob⟩ := hconsumed
  exact ⟨_, off, c₁, iob, by rwa [Nat.mod_eq_of_lt hshort], hle, hdeliver, hiob, rfl⟩

/-- The loop after a round that goes on. -/
theorem processLoop_goes (h : Goes alloc c c') (fuel : ℕ) :
    processLoop alloc (fuel + 1) c = processLoop alloc fuel c' := by
  obtain ⟨off, c₁, iob, hfound, hle, hdeliver, hconsumed, rfl⟩ := h
  rw [processLoop, hfound]
  simp only [if_neg (not_lt.mpr hle), hdeliver, hconsumed, bind, Except.bind]

/-- A loop that returns has stopped or gone on. -/
theorem goes_of_returns {fuel : ℕ} {r : Conn × Bool} (hin : c.recvbuf.Inside)
    (h : processLoop alloc (fuel + 1) c = .ok r)
    (hfound : defaultProcessFunc c.recvbuf.data c.recvbuf.off = some off) :
    ∃ c', Goes alloc c c' ∧ processLoop alloc fuel c' = .ok r := by
  have hshort := hin.short
  have hle := (defaultProcessFunc_eq_some.mp hfound).2.2
  rw [processLoop, Nat.mod_eq_of_lt hshort, hfound] at h
  simp only [if_neg (not_lt.mpr hle), bind, Except.bind] at h
  cases hdeliver : deliver alloc c off with
  | error t =>
      rw [hdeliver] at h
      cases h
  | ok c₁ =>
      rw [hdeliver] at h
      simp only at h
      cases hconsumed : c₁.recvbuf.consumed off with
      | error t =>
          rw [hconsumed] at h
          cases h
      | ok iob =>
          rw [hconsumed] at h
          exact ⟨_, ⟨off, c₁, iob, by rwa [Nat.mod_eq_of_lt hshort], hle, hdeliver, hconsumed, rfl⟩,
            h⟩

end Front

/-! ## Under the condition -/

section Steady

variable {alloc : Bool} {c c' : Conn} {off : ℕ}

/-- What is found under the condition is a frame. -/
theorem Steady.frame (h : Steady alloc c) (hin : c.recvbuf.Inside)
    (hfound : defaultProcessFunc c.recvbuf.data c.recvbuf.off = some off) :
    ∃ x rest, c.recvbuf.data = frameBytes x ++ rest ∧ (frameBytes x).length = off
      ∧ headerLen ≤ off ∧ c.recvbuf.error = false
      ∧ (c.msgFunc = true ∨ alloc = true ∧ off + 1 < 2 ^ 32) := by
  obtain ⟨hheader, hoff, hle⟩ := defaultProcessFunc_eq_some.mp hfound
  have hlt := h.length_lt [] c.recvbuf.data rfl (by rw [hin.length_data]; exact hheader)
  rw [Nat.mod_eq_of_lt (by rw [headerLen] at *; omega)] at hoff
  obtain ⟨x, rest, hdata, hlength⟩ := first_frame (by rw [hin.length_data]; omega)
  obtain ⟨herror, hhanded⟩ := h.usable [x] rest (by
    rw [hdata, frames_cons, show frames [] = [] from rfl, List.append_nil]) (by simp)
  refine ⟨x, rest, hdata, by omega, by omega, herror, hhanded.imp_right fun hall => ?_⟩
  have hx := hall.2 x (List.mem_singleton_self x)
  exact ⟨hall.1, by omega⟩

/-- **Step lemma.**  A round under the condition consumes a frame, and the condition holds of
what is left. -/
theorem Steady.goes (h : Steady alloc c) (hin : c.recvbuf.Inside) (hgoes : Goes alloc c c') :
    Consumes c c' ∧ c'.recvbuf.off < c.recvbuf.off ∧ c'.recvbuf.Inside ∧ Steady alloc c' := by
  obtain ⟨off, hfound, hle, hmsgFunc, -, hrecvbuf⟩ := hgoes.spec hin
  obtain ⟨x, rest, hdata, hlength, hheader, herror, -⟩ := h.frame hin hfound
  obtain ⟨hin', hdrop⟩ := hin.skipped hle
  rw [if_neg (by simp [herror])] at hrecvbuf
  rw [← hrecvbuf] at hin' hdrop
  have hrest : c'.recvbuf.data = rest := by rw [hdrop, hdata, ← hlength, List.drop_left]
  have hoff : c'.recvbuf.off = c.recvbuf.off - off := by rw [hrecvbuf]
  have hpos : 0 < off := lt_of_lt_of_le (by decide) hheader
  refine ⟨⟨off, hheader, hle, hoff, hdrop⟩, by omega, hin', ?_, ?_⟩
  · intro done rest' hdata' hlen
    refine h.length_lt (x :: done) rest' ?_ hlen
    rw [frames_cons, List.append_assoc, ← hdata', hrest, hdata]
  · intro done rest' hdata' hne
    have husable := h.usable (x :: done) rest' (by
      rw [frames_cons, List.append_assoc, ← hdata', hrest, hdata]) (by simp)
    rw [hmsgFunc]
    refine ⟨by rw [hrecvbuf]; exact herror, husable.2.imp_right fun hall => ?_⟩
    exact ⟨hall.1, fun y hy => hall.2 y (List.mem_cons_of_mem _ hy)⟩

/-- **Run lemma.**  Every state of the loop meets the condition. -/
theorem Steady.reach (h : Steady alloc c) (hin : c.recvbuf.Inside)
    (hreach : Relation.ReflTransGen (Goes alloc) c c') :
    c'.recvbuf.Inside ∧ Steady alloc c' := by
  induction hreach with
  | refl => exact ⟨hin, h⟩
  | tail _ hgoes ih => exact (ih.2.goes ih.1 hgoes).2.2

/-- The loop returns, by induction on the bytes that are left. -/
theorem Steady.returns (h : Steady alloc c) (hin : c.recvbuf.Inside) :
    ∃ fuel r, processLoop alloc fuel c = .ok r := by
  induction hn : c.recvbuf.off using Nat.strong_induction_on generalizing c with
  | h n ih =>
      cases hfound : defaultProcessFunc c.recvbuf.data c.recvbuf.off with
      | none =>
          refine ⟨1, (c, false), ?_⟩
          rw [processLoop, Nat.mod_eq_of_lt hin.short, hfound]
      | some off =>
          obtain ⟨-, -, -, -, -, -, hhanded⟩ := h.frame hin hfound
          obtain ⟨c', hgoes⟩ := goes_of hin hfound hhanded
          obtain ⟨-, hless, hin', hsteady'⟩ := h.goes hin hgoes
          obtain ⟨fuel, r, hrun⟩ := ih c'.recvbuf.off (hn ▸ hless) hsteady' hin' rfl
          exact ⟨fuel + 1, r, by rw [processLoop_goes hgoes, hrun]⟩

end Steady

/-! ## Only under the condition -/

section Progress

variable {alloc : Bool} {c c' : Conn}

/-- The loop returns after one round as it does from the start. -/
theorem Progresses.goes (h : Progresses alloc c) (hgoes : Goes alloc c c') :
    Progresses alloc c' := by
  refine ⟨fun c₁ c₂ hreach => h.consumes c₁ c₂ (.head hgoes hreach), ?_⟩
  obtain ⟨fuel, r, hrun⟩ := h.returns
  cases fuel with
  | zero => cases hrun
  | succ fuel =>
      rw [processLoop_goes hgoes] at hrun
      exact ⟨fuel, r, hrun⟩

/-- A loop that makes progress goes on when something is found. -/
theorem Progresses.round (h : Progresses alloc c) (hin : c.recvbuf.Inside) {off : ℕ}
    (hfound : defaultProcessFunc c.recvbuf.data c.recvbuf.off = some off) :
    ∃ c', Goes alloc c c' ∧ Progresses alloc c' ∧ c'.recvbuf.Inside ∧ headerLen ≤ off
      ∧ c.recvbuf.error = false ∧ c'.recvbuf.error = false ∧ c'.msgFunc = c.msgFunc
      ∧ (c.msgFunc = true ∨ alloc = true ∧ off + 1 < 2 ^ 32)
      ∧ c'.recvbuf.data = c.recvbuf.data.drop off := by
  obtain ⟨fuel, r, hrun⟩ := h.returns
  cases fuel with
  | zero => cases hrun
  | succ fuel =>
      obtain ⟨c', hgoes, -⟩ := goes_of_returns hin hrun hfound
      obtain ⟨off', hfound', hle, hmsgFunc, hhanded, hrecvbuf⟩ := hgoes.spec hin
      obtain rfl := Option.some.inj (hfound.symm.trans hfound')
      obtain ⟨n, hheader, hn, hoff, -⟩ := h.consumes c c' .refl hgoes
      have hpos : 0 < n := lt_of_lt_of_le (by decide) hheader
      have herror : c.recvbuf.error = false := by
        by_contra herror
        rw [if_pos (by simpa using herror)] at hrecvbuf
        rw [hrecvbuf] at hoff
        omega
      obtain ⟨hin', hdrop⟩ := hin.skipped hle
      rw [if_neg (by simp [herror])] at hrecvbuf
      rw [← hrecvbuf] at hin' hdrop
      have hoff' : c'.recvbuf.off = c.recvbuf.off - off := by rw [hrecvbuf]
      obtain rfl : n = off := by omega
      refine ⟨c', hgoes, h.goes hgoes, hin', hheader, herror, ?_, hmsgFunc, hhanded, hdrop⟩
      rw [hrecvbuf]
      exact herror

/-- What a loop that makes progress finds, by induction on the complete frames. -/
theorem Progresses.found (h : Progresses alloc c) (hin : c.recvbuf.Inside)
    {done : List (List UInt8)} {rest : List UInt8} (hdata : c.recvbuf.data = frames done ++ rest) :
    (headerLen ≤ rest.length → decBe32 rest < 2 ^ 32 - headerLen)
      ∧ (done ≠ [] → c.recvbuf.error = false
        ∧ (c.msgFunc = true ∨ alloc = true ∧ ∀ x ∈ done, (frameBytes x).length + 1 < 2 ^ 32)) := by
  induction done generalizing c with
  | nil =>
      refine ⟨fun hheader => ?_, fun hne => absurd rfl hne⟩
      by_contra hlarge
      rw [show frames [] = [] from rfl, List.nil_append] at hdata
      have hlen := hin.length_data
      have hlt := decBe32_lt rest
      rw [hdata] at hlen
      -- the sum wraps to less than the header
      have hwrap : (decBe32 rest + headerLen) % 2 ^ 32 < headerLen := by
        rw [headerLen] at *
        omega
      have hfound : defaultProcessFunc c.recvbuf.data c.recvbuf.off
          = some ((decBe32 rest + headerLen) % 2 ^ 32) :=
        defaultProcessFunc_eq_some.mpr ⟨by omega, by rw [hdata], by omega⟩
      obtain ⟨c', -, -, -, hheader', -⟩ := h.round hin hfound
      omega
  | cons x done ih =>
      rw [frames_cons, List.append_assoc] at hdata
      have hlen := hin.length_data
      have hshort := hin.short
      rw [hdata, List.length_append] at hlen
      have hfound : defaultProcessFunc c.recvbuf.data c.recvbuf.off
          = some (frameBytes x).length := by
        rw [hdata]
        exact defaultProcessFunc_complete (by omega) _ (by omega)
      obtain ⟨c', -, hprogress, hin', -, herror, -, hmsgFunc, hhanded, hdrop⟩ := h.round hin hfound
      rw [hdata, List.drop_left] at hdrop
      obtain ⟨hrest, hdone⟩ := ih hprogress hin' hdrop
      refine ⟨hrest, fun _ => ⟨herror, ?_⟩⟩
      rcases hhanded with hmsg | ⟨halloc, hx⟩
      · exact .inl hmsg
      · rcases eq_or_ne done [] with rfl | hne
        · exact .inr ⟨halloc, by simpa using hx⟩
        · rw [hmsgFunc] at hdone
          refine (hdone hne).2.imp_right fun hall => ⟨halloc, ?_⟩
          rw [List.forall_mem_cons]
          exact ⟨hx, hall.2⟩

end Progress

/-- **When the frame loop makes progress.**  For every content of the receive buffer of less
than `2 ^ 32` bytes: every round of the loop that does not stop consumes at least the header
and at most the bytes that are there, and the loop returns, if and only if no length behind
complete frames is one of the last four, and complete frames, if there are any, can be taken
off the buffer and handed out. -/
theorem frame_loop_progresses_iff (alloc : Bool) {c : Conn} (hin : c.recvbuf.Inside) :
    Progresses alloc c ↔ Steady alloc c := by
  constructor
  · intro h
    exact ⟨fun done rest hdata => (h.found hin hdata).1,
      fun done rest hdata => (h.found hin hdata).2⟩
  · intro h
    refine ⟨fun c' c'' hreach hgoes => ?_, h.returns hin⟩
    obtain ⟨hin', hsteady⟩ := h.reach hin hreach
    exact (hsteady.goes hin' hgoes).1

/-- A connection of which the buffer holds some bytes. -/
def connWith (data : List UInt8) : Conn := ⟨⟨data, data.length, data.length, 0, false⟩, true, []⟩

/-- A frame of one byte, and the beginning of one of two bytes. -/
theorem frame_loop_progresses_iff_begun :
    Progresses true (connWith (frames [[7]] ++ encBe32 2 ++ [8])) := by
  refine (frame_loop_progresses_iff true ⟨by decide, by decide⟩).mpr ?_
  have hsplit : ∀ done rest, encBe32 1 ++ 7 :: (encBe32 2 ++ [8]) = frames done ++ rest →
      done = [] ∧ rest = [0, 0, 0, 1, 7, 0, 0, 0, 2, 8]
        ∨ done = [[7]] ∧ rest = [0, 0, 0, 2, 8] := by
    intro done rest hdata
    rcases done with _ | ⟨x, _ | ⟨y, l⟩⟩
    · exact .inl ⟨rfl, hdata.symm⟩
    · obtain ⟨-, rfl, hback⟩ := frames_cons_inj (by decide) (by decide) hdata
      exact .inr ⟨rfl, hback.symm⟩
    · obtain ⟨-, -, hback⟩ := frames_cons_inj (by decide) (by decide) hdata
      have hsecond : encBe32 2 ++ [8] = frames (y :: l) ++ rest := hback
      exact absurd (frames_cons_inj (by decide) (by decide) hsecond).1 (by decide)
  refine ⟨fun done rest hdata _ => ?_, fun done rest hdata hne => ?_⟩
  · rcases hsplit done rest hdata with ⟨-, rfl⟩ | ⟨-, rfl⟩ <;> decide
  · rcases hsplit done rest hdata with ⟨rfl, -⟩ | ⟨rfl, -⟩
    · exact absurd rfl hne
    · exact ⟨rfl, .inr ⟨rfl, by decide⟩⟩

/-- **The length `0xfffffffc`** wraps to nothing, which is handed out for ever. -/
theorem wrapped_length_stalls :
    ¬ ∀ (alloc : Bool) (c : Conn), c.recvbuf.Inside → Progresses alloc c := by
  intro hforall
  have hgoes : Goes true (connWith [255, 255, 255, 252])
      { connWith [255, 255, 255, 252] with delivered := [[]] } :=
    ⟨0, _, _, by decide, by decide, rfl, rfl, rfl⟩
  obtain ⟨n, hheader, -, hoff, -⟩ := (hforall true (connWith [255, 255, 255, 252])
    ⟨by decide, by decide⟩).consumes _ _ .refl hgoes
  have hfour : (connWith [255, 255, 255, 252]).recvbuf.off = 4 := by decide
  rw [headerLen] at hheader
  change (connWith [255, 255, 255, 252]).recvbuf.off = _ at hoff
  omega

end Zevent.Znet
