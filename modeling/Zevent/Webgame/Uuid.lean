/-
# Ids of the gate server (`webgame/gateserver/src/uuidservice.c`)

`gen_uuid_local` makes an id of the current second, a counter that starts again with every
second, the id of the server and the type of the id, each shifted to its place.  The layout
is meant to be 32 bits of time, 14 bits of counter, 2 bits of server id and 16 bits of type,
but the server id is shifted by 30 and the counter by 18: the server id lies on bit 12 of the
counter, and the counter, which goes up to 19999, is allowed one bit more than its field has.

`uuids_distinct` says when the ids of a run are distinct all the same: when no second takes
the counter to 4096, and the clock stays below `2 ^ 32`.  The ids then even increase.
`fudge_meets_svrid` is a run in which the id number 4097 of a second is the first one again.

`parse_uuid` takes an id apart by another layout: 8 bits of counter at bit 24, the server id in
bit 23 and 8 bits of type.  No id of `gen_uuid_local` comes back from it whole
(`parseUuid_not_genuine`): the only counter that it gets right is 65, and there it reads the
server id as 0.
-/
import Mathlib.Tactic

namespace Zevent.Webgame

/-! ## The generator -/

/-- `MAX_PER_SECOND`. -/
def maxPerSecond : UInt64 := 20000

/-- `UUID_TYPE_MAX`. -/
def uuidTypeMax : ℤ := 60000

/-- `RET_TM_ERROR`, `RET_FUDGE_OVERFLOW` and `RET_IDTYPE_ERROR`. -/
inductive UuidError where
  | tmError
  | fudgeOverflow
  | idtypeError
  deriving DecidableEq, Repr

/-- `uuid_data_t`, in shared memory. -/
structure UuidData where
  timeLast : UInt64
  fudge : UInt64
  deriving DecidableEq, Repr

/-- `uuid_init`, when the shared memory is not there yet. -/
def uuidInit (timeNow : UInt64) : UuidData := ⟨timeNow, 0⟩

/-- The id, with `svrid` 1.  An `int` is extended to 64 bits. -/
def packUuid (timeNow fudge : UInt64) (uuidType : ℤ) : UInt64 :=
  (timeNow <<< 32) ||| (fudge <<< 18) ||| ((1 : UInt64) <<< 30) ||| UInt64.ofInt uuidType

/-- The end of `gen_uuid_local`, once the counter is right. -/
def finishUuid (uuidType : ℤ) (timeNow : UInt64) (d : UuidData) :
    UuidData × Except UuidError UInt64 :=
  if uuidType > uuidTypeMax then (d, .error .idtypeError)
  else (d, .ok (packUuid timeNow d.fudge uuidType))

/-- `gen_uuid_local`, when `time` returns `timeNow`. -/
def genUuidLocal (uuidType : ℤ) (timeNow : UInt64) (d : UuidData) :
    UuidData × Except UuidError UInt64 :=
  if d.timeLast > timeNow then (d, .error .tmError)
  else if d.timeLast ≠ timeNow then finishUuid uuidType timeNow ⟨timeNow, 0⟩
  else if d.fudge ≥ maxPerSecond - 1 then (d, .error .fudgeOverflow)
  else finishUuid uuidType timeNow { d with fudge := d.fudge + 1 }

/-- A call: the type that is asked for, and what the clock says. -/
structure UuidCall where
  uuidType : ℤ
  timeNow : UInt64
  deriving DecidableEq, Repr

/-- The ids that the successful calls return. -/
def issued : UuidData → List UuidCall → List UInt64
  | _, [] => []
  | d, call :: calls =>
      match genUuidLocal call.uuidType call.timeNow d with
      | (d, .ok uuid) => uuid :: issued d calls
      | (d, .error _) => issued d calls

/-- The types that are allowed. -/
def UuidCall.TypeOk (call : UuidCall) : Prop := 0 ≤ call.uuidType ∧ call.uuidType ≤ uuidTypeMax

/-- The condition on a call: the clock went back, so that it fails, or the time fits into 32
bits and the counter does not get to 4096. -/
def Spaced (d : UuidData) (call : UuidCall) : Prop :=
  call.timeNow < d.timeLast ∨
    call.timeNow.toNat < 2 ^ 32 ∧ (call.timeNow = d.timeLast → d.fudge.toNat + 1 < 4096)

instance (d : UuidData) (call : UuidCall) : Decidable (Spaced d call) :=
  inferInstanceAs (Decidable (_ ∨ _ ∧ (_ → _)))

/-- The condition on a run. -/
def AllSpaced : UuidData → List UuidCall → Prop
  | _, [] => True
  | d, call :: calls =>
      Spaced d call ∧ AllSpaced (genUuidLocal call.uuidType call.timeNow d).1 calls

/-! ## One call -/

/-- What a call does: it fails and changes nothing, starts a new second, or counts. -/
theorem genUuidLocal_cases {call : UuidCall} (h : call.TypeOk) (d : UuidData) :
    (∃ e, genUuidLocal call.uuidType call.timeNow d = (d, .error e)) ∨
      ∃ fudge, genUuidLocal call.uuidType call.timeNow d
          = (⟨call.timeNow, fudge⟩, .ok (packUuid call.timeNow fudge call.uuidType)) ∧
        (d.timeLast < call.timeNow ∧ fudge = 0 ∨
          d.timeLast = call.timeNow ∧ d.fudge < maxPerSecond - 1 ∧ fudge = d.fudge + 1) := by
  have hfinish : ∀ d : UuidData, finishUuid call.uuidType call.timeNow d
      = (d, .ok (packUuid call.timeNow d.fudge call.uuidType)) :=
    fun d => if_neg (not_lt.mpr h.2)
  unfold genUuidLocal
  by_cases hback : d.timeLast > call.timeNow
  · rw [if_pos hback]
    exact Or.inl ⟨_, rfl⟩
  · rw [if_neg hback]
    by_cases hnew : d.timeLast ≠ call.timeNow
    · rw [if_pos hnew, hfinish]
      refine Or.inr ⟨0, rfl, Or.inl ⟨?_, rfl⟩⟩
      exact UInt64.lt_of_le_of_ne (UInt64.not_lt.mp hback) hnew
    · rw [if_neg hnew]
      have htime : d.timeLast = call.timeNow := not_ne_iff.mp hnew
      by_cases hfull : d.fudge ≥ maxPerSecond - 1
      · rw [if_pos hfull]
        exact Or.inl ⟨_, rfl⟩
      · rw [if_neg hfull, hfinish]
        refine Or.inr ⟨d.fudge + 1, ?_, Or.inr ⟨htime, UInt64.not_le.mp hfull, rfl⟩⟩
        rw [htime]

/-- Fields that do not overlap are added up. -/
theorem or_fields {time fudge type : ℕ} (hfudge : fudge < 2 ^ 12) (htype : type < 2 ^ 18) :
    2 ^ 32 * time ||| 2 ^ 18 * fudge ||| 2 ^ 30 * 1 ||| type
      = 2 ^ 32 * time + (2 ^ 18 * (2 ^ 12 + fudge) + type) := by
  have hsvrid : 2 ^ 18 * fudge ||| 2 ^ 30 * 1 = 2 ^ 18 * (2 ^ 12 + fudge) := by
    rw [Nat.or_comm, ← Nat.two_pow_add_eq_or_of_lt (by omega)]
    ring
  rw [Nat.or_assoc (2 ^ 32 * time), hsvrid, Nat.or_assoc, ← Nat.two_pow_add_eq_or_of_lt htype,
    ← Nat.two_pow_add_eq_or_of_lt (by omega)]

/-- With a time of 32 bits and a counter of 12 bits the fields do not overlap. -/
theorem toNat_packUuid {timeNow fudge : UInt64} {uuidType : ℤ} (htime : timeNow.toNat < 2 ^ 32)
    (hfudge : fudge.toNat < 4096) (htype : 0 ≤ uuidType) (hmax : uuidType ≤ uuidTypeMax) :
    (packUuid timeNow fudge uuidType).toNat
      = 2 ^ 32 * timeNow.toNat + (2 ^ 18 * (2 ^ 12 + fudge.toNat) + uuidType.toNat) := by
  rw [uuidTypeMax] at hmax
  have hint : (UInt64.ofInt uuidType).toNat = uuidType.toNat := by
    rw [UInt64.ofInt, UInt64.toNat_ofNat']
    omega
  have hshift : ∀ {a : ℕ} (k : ℕ), 2 ^ k * a < 2 ^ 64 → a <<< k % 2 ^ 64 = 2 ^ k * a := by
    intro a k hk
    rw [Nat.shiftLeft_eq, mul_comm, Nat.mod_eq_of_lt hk]
  rw [packUuid, UInt64.toNat_or, UInt64.toNat_or, UInt64.toNat_or, UInt64.toNat_shiftLeft,
    UInt64.toNat_shiftLeft, UInt64.toNat_shiftLeft, hint]
  show timeNow.toNat <<< 32 % 2 ^ 64 ||| fudge.toNat <<< 18 % 2 ^ 64 ||| 1 <<< 30 % 2 ^ 64 |||
    uuidType.toNat = _
  rw [hshift 32 (by omega), hshift 18 (by omega), hshift 30 (by norm_num),
    or_fields hfudge (by omega)]

/-! ## Runs -/

/-- The second and the counter in one number; the ids of a state lie between it and the next
one. -/
def UuidData.stamp (d : UuidData) : ℕ :=
  2 ^ 32 * d.timeLast.toNat + 2 ^ 18 * (2 ^ 12 + d.fudge.toNat)

/-- **One call.**  It fails and changes nothing, or it leads to a later stamp and its id
belongs to that stamp. -/
theorem genUuidLocal_stamp {call : UuidCall} {d : UuidData} (h : call.TypeOk)
    (hspaced : Spaced d call) (hd : d.fudge.toNat < 4096) :
    (∃ e, genUuidLocal call.uuidType call.timeNow d = (d, .error e)) ∨
      ∃ d' uuid, genUuidLocal call.uuidType call.timeNow d = (d', .ok uuid) ∧
        d'.fudge.toNat < 4096 ∧ d.stamp + 2 ^ 18 ≤ d'.stamp ∧
        d'.stamp ≤ uuid.toNat ∧ uuid.toNat < d'.stamp + 2 ^ 18 := by
  rcases genUuidLocal_cases h d with herror | ⟨fudge, hcall, hstep⟩
  · exact Or.inl herror
  · have htime : call.timeNow.toNat < 2 ^ 32
        ∧ (call.timeNow = d.timeLast → d.fudge.toNat + 1 < 4096) := by
      refine hspaced.resolve_left fun hback => ?_
      rcases hstep with ⟨hlt, -⟩ | ⟨heq, -⟩
      · exact UInt64.lt_asymm hback hlt
      · exact UInt64.lt_irrefl _ (heq ▸ hback)
    have hstamp : fudge.toNat < 4096 ∧ d.stamp + 2 ^ 18 ≤ UuidData.stamp ⟨call.timeNow, fudge⟩ := by
      unfold UuidData.stamp
      rcases hstep with ⟨hlt, rfl⟩ | ⟨heq, -, rfl⟩
      · -- a later second outweighs any counter
        have hlt' := UInt64.lt_iff_toNat_lt.mp hlt
        have hzero : (0 : UInt64).toNat = 0 := rfl
        dsimp only
        omega
      · have hone : (d.fudge + 1).toNat = d.fudge.toNat + 1 := by
          rw [UInt64.toNat_add]
          have := htime.2 heq.symm
          show (d.fudge.toNat + 1) % 2 ^ 64 = _
          omega
        have hsmall := htime.2 heq.symm
        rw [heq]
        dsimp only
        omega
    refine Or.inr ⟨_, _, hcall, hstamp.1, hstamp.2, ?_⟩
    have htype := h.2
    rw [uuidTypeMax] at htype
    rw [toNat_packUuid htime.1 hstamp.1 h.1 h.2]
    unfold UuidData.stamp
    dsimp only
    omega

/-- The ids of a run are later than the state that it starts in, and they increase. -/
theorem issued_increase {d : UuidData} {calls : List UuidCall} (hd : d.fudge.toNat < 4096)
    (htypes : ∀ call ∈ calls, call.TypeOk) (hspaced : AllSpaced d calls) :
    (∀ uuid ∈ issued d calls, d.stamp + 2 ^ 18 ≤ uuid.toNat) ∧
      (issued d calls).Pairwise (· < ·) := by
  induction calls generalizing d with
  | nil => exact ⟨by simp [issued], List.Pairwise.nil⟩
  | cons call calls ih =>
      obtain ⟨hhere, hlater⟩ := hspaced
      have htypes' : ∀ call ∈ calls, call.TypeOk := fun c hc => htypes c (List.mem_cons_of_mem _ hc)
      rw [issued]
      rcases genUuidLocal_stamp (htypes call List.mem_cons_self) hhere hd with
        ⟨e, hcall⟩ | ⟨d', uuid, hcall, hd', hstamp, hlow, hhigh⟩
      · rw [hcall] at hlater ⊢
        exact ih hd htypes' hlater
      · rw [hcall] at hlater ⊢
        obtain ⟨hlate, hpairs⟩ := ih hd' htypes' hlater
        -- this id is below the next stamp, and the later ids are above it
        refine ⟨?_, List.pairwise_cons.mpr ⟨fun later hmem => ?_, hpairs⟩⟩
        · intro id hid
          rcases List.mem_cons.mp hid with rfl | hid
          · omega
          · have := hlate id hid
            omega
        · have := hlate later hmem
          exact UInt64.lt_iff_toNat_lt.mpr (by omega)

/-- **The ids are distinct as long as the counter stays below 4096.**  In every run of
`gen_uuid_local` with allowed types, whatever the clock says: when no call finds the clock at
`2 ^ 32` or beyond, or the counter of its second at 4095, the ids of the successful calls are
pairwise distinct. -/
theorem uuids_distinct (timeNow : UInt64) (calls : List UuidCall)
    (htypes : ∀ call ∈ calls, call.TypeOk) (hspaced : AllSpaced (uuidInit timeNow) calls) :
    (issued (uuidInit timeNow) calls).Nodup := by
  have hzero : (uuidInit timeNow).fudge.toNat < 4096 := by
    show (0 : UInt64).toNat < 4096
    decide
  refine (issued_increase hzero htypes hspaced).2.imp fun hlt heq => ?_
  exact UInt64.lt_irrefl _ (heq ▸ hlt)

/-- Two ids in one second, a call that finds the clock behind, and an id in the next second. -/
theorem uuids_distinct_three :
    (issued (uuidInit 5) [⟨1, 5⟩, ⟨2, 5⟩, ⟨1, 4⟩, ⟨1, 6⟩]).Nodup ∧
      (issued (uuidInit 5) [⟨1, 5⟩, ⟨2, 5⟩, ⟨1, 4⟩, ⟨1, 6⟩]).length = 3 := by
  refine ⟨uuids_distinct 5 _ ?_ ?_, by decide⟩
  · simp [UuidCall.TypeOk, uuidTypeMax]
  · refine ⟨?_, ?_, ?_, ?_, trivial⟩ <;> decide

/-! ## A run with an id twice -/

/-- The `k`-th of `n` calls in a second returns the id of the counter plus `k`. -/
theorem packUuid_mem_issued {call : UuidCall} (h : call.TypeOk) {m n k : ℕ} (hk : 0 < k)
    (hkn : k ≤ n) (hmax : m + n ≤ 19999) :
    packUuid call.timeNow (UInt64.ofNat (m + k)) call.uuidType
      ∈ issued ⟨call.timeNow, UInt64.ofNat m⟩ (List.replicate n call) := by
  induction n generalizing m k with
  | zero => omega
  | succ n ih =>
      have hnext : UInt64.ofNat m + 1 = UInt64.ofNat (m + 1) := (UInt64.ofNat_add m 1).symm
      have hcall : genUuidLocal call.uuidType call.timeNow ⟨call.timeNow, UInt64.ofNat m⟩
          = (⟨call.timeNow, UInt64.ofNat (m + 1)⟩,
            .ok (packUuid call.timeNow (UInt64.ofNat (m + 1)) call.uuidType)) := by
        have hroom : ¬ UInt64.ofNat m ≥ maxPerSecond - 1 := by
          refine UInt64.not_le.mpr (UInt64.lt_iff_toNat_lt.mpr ?_)
          rw [UInt64.toNat_ofNat']
          show m % 2 ^ 64 < 19999
          omega
        rw [genUuidLocal, if_neg (UInt64.lt_irrefl _), if_neg (not_not.mpr rfl), if_neg hroom,
          finishUuid, if_neg (not_lt.mpr h.2), ← hnext]
      rw [List.replicate_succ, issued, hcall]
      by_cases hone : k = 1
      · rw [hone]
        exact List.mem_cons_self
      · have hlater := @ih (m + 1) (k - 1) (by omega) (by omega) (by omega)
        rw [show m + 1 + (k - 1) = m + k by omega] at hlater
        exact List.mem_cons_of_mem _ hlater

/-- The counter 4096 is the bit that the server id has set already. -/
theorem packUuid_4096 (timeNow : UInt64) (uuidType : ℤ) :
    packUuid timeNow (UInt64.ofNat 4096) uuidType = packUuid timeNow 0 uuidType := by
  have hbit : UInt64.ofNat 4096 <<< 18 = (1 : UInt64) <<< 30 := by decide
  have hzero : (0 : UInt64) <<< 18 = 0 := by decide
  rw [packUuid, packUuid, hbit, hzero, UInt64.or_assoc (timeNow <<< 32), UInt64.or_self,
    UInt64.or_zero]

/-- A second in which more than 4096 ids of one type are asked for has an id twice. -/
theorem not_nodup_issued {call : UuidCall} {d : UuidData} (h : call.TypeOk)
    (hnew : d.timeLast < call.timeNow) {n : ℕ} (hn : 4096 ≤ n) (hmax : n ≤ 19999) :
    ¬ (issued d (List.replicate (n + 1) call)).Nodup := by
  have hcall : genUuidLocal call.uuidType call.timeNow d
      = (⟨call.timeNow, UInt64.ofNat 0⟩, .ok (packUuid call.timeNow 0 call.uuidType)) := by
    rw [genUuidLocal, if_neg (UInt64.lt_asymm hnew), if_pos (UInt64.ne_of_lt hnew), finishUuid,
      if_neg (not_lt.mpr h.2)]
    rfl
  have hlast := packUuid_mem_issued h (m := 0) (show 0 < 4096 by omega) hn (by omega)
  rw [zero_add, packUuid_4096] at hlast
  rw [List.replicate_succ, issued, hcall]
  exact fun hnodup => (List.nodup_cons.mp hnodup).1 hlast

/-- **The same id twice.**  In a new second 4097 ids of one type are asked for.  All calls are
allowed and the clock stands still, and the last id is the first one again. -/
theorem fudge_meets_svrid :
    (∀ call ∈ List.replicate 4097 (⟨1, 1⟩ : UuidCall), call.TypeOk) ∧
      ¬ (issued (uuidInit 0) (List.replicate 4097 ⟨1, 1⟩)).Nodup := by
  have htype : (⟨1, 1⟩ : UuidCall).TypeOk := by
    constructor <;> decide
  constructor
  · intro call hcall
    rw [List.eq_of_mem_replicate hcall]
    exact htype
  · exact not_nodup_issued htype (by decide) le_rfl (by omega)

/-! ## Taking an id apart -/

/-- `uuid_t`. -/
structure UuidT where
  time : Int32
  fudge : UInt32
  svrid : UInt8
  type : UInt16
  deriving DecidableEq, Repr

/-- `parse_uuid`. -/
def parseUuid (uuid : UInt64) : UuidT where
  time := (uuid >>> 32).toUInt32.toInt32
  fudge := ((uuid &&& 0xFF000000) >>> 24).toUInt32
  svrid := ((uuid &&& 0xFF0000) >>> 23).toUInt8
  type := (uuid &&& 0xFF).toUInt16

/-- The parts of an id: its time, its counter, the server id 1 and its type. -/
def UuidT.Genuine (parts : UuidT) (timeNow fudge : UInt64) (uuidType : ℤ) : Prop :=
  parts.time.toInt = timeNow.toNat ∧ parts.fudge.toNat = fudge.toNat ∧ parts.svrid = 1 ∧
    (parts.type.toNat : ℤ) = uuidType

instance (parts : UuidT) (timeNow fudge : UInt64) (uuidType : ℤ) :
    Decidable (parts.Genuine timeNow fudge uuidType) :=
  inferInstanceAs (Decidable (_ ∧ _ ∧ _ ∧ _))

/-- A byte of a word, cut out by a mask. -/
theorem toNat_mask_shift (uuid : UInt64) (k : ℕ) :
    (uuid.toNat &&& 2 ^ k * 255) >>> k = uuid.toNat / 2 ^ k % 256 := by
  have hmask : ∀ n : ℕ, n &&& 255 = n % 256 := fun n => Nat.and_two_pow_sub_one_eq_mod n 8
  rw [Nat.shiftRight_and_distrib, Nat.shiftRight_eq_div_pow, Nat.shiftRight_eq_div_pow,
    Nat.mul_div_cancel_left _ (Nat.two_pow_pos k), hmask]

/-- The counter that is read has 8 bits. -/
theorem parseUuid_fudge (uuid : UInt64) :
    (parseUuid uuid).fudge.toNat = uuid.toNat / 2 ^ 24 % 256 := by
  show ((uuid.toNat &&& 2 ^ 24 * 255) >>> 24) % 2 ^ 32 = _
  rw [toNat_mask_shift, Nat.mod_eq_of_lt (by omega)]

/-- The server id that is read is one bit. -/
theorem parseUuid_svrid (uuid : UInt64) :
    (parseUuid uuid).svrid.toNat = uuid.toNat / 2 ^ 23 % 2 := by
  have hbit : (uuid.toNat &&& 2 ^ 16 * 255) >>> 23 = uuid.toNat / 2 ^ 16 % 256 / 2 ^ 7 := by
    rw [← toNat_mask_shift, ← Nat.shiftRight_eq_div_pow, ← Nat.shiftRight_add]
  show ((uuid.toNat &&& 2 ^ 16 * 255) >>> 23) % 2 ^ 8 = _
  rw [hbit]
  omega

/-- What a successful call returns. -/
theorem genUuidLocal_ok {uuidType : ℤ} {timeNow : UInt64} {d d' : UuidData} {uuid : UInt64}
    (hcall : genUuidLocal uuidType timeNow d = (d', .ok uuid)) :
    uuidType ≤ uuidTypeMax ∧ uuid = packUuid timeNow d'.fudge uuidType := by
  have hfinish : ∀ d : UuidData, finishUuid uuidType timeNow d = (d', .ok uuid) →
      uuidType ≤ uuidTypeMax ∧ uuid = packUuid timeNow d'.fudge uuidType := by
    intro d hd
    rw [finishUuid] at hd
    split at hd
    · cases hd
    · rename_i htype
      cases hd
      exact ⟨not_lt.mp htype, rfl⟩
  unfold genUuidLocal at hcall
  split at hcall
  · cases hcall
  · split at hcall
    · exact hfinish _ hcall
    · split at hcall
      · cases hcall
      · exact hfinish _ hcall

/-- **No id is taken apart as it was put together.**  For every id that `gen_uuid_local` makes
of a type from 0 on and a time below `2 ^ 31`, `parse_uuid` gets the time, the counter, the
server id or the type wrong. -/
theorem parseUuid_not_genuine {uuidType : ℤ} {timeNow : UInt64} {d d' : UuidData} {uuid : UInt64}
    (htype : 0 ≤ uuidType) (htime : timeNow.toNat < 2 ^ 31)
    (hcall : genUuidLocal uuidType timeNow d = (d', .ok uuid)) :
    ¬ (parseUuid uuid).Genuine timeNow d'.fudge uuidType := by
  rintro ⟨-, hfudge, hsvrid, -⟩
  obtain ⟨hmax, rfl⟩ := genUuidLocal_ok hcall
  rw [parseUuid_fudge] at hfudge
  have hbit := congrArg UInt8.toNat hsvrid
  rw [parseUuid_svrid] at hbit
  change _ = 1 at hbit
  have hword := toNat_packUuid (show timeNow.toNat < 2 ^ 32 by omega)
    (show d'.fudge.toNat < 4096 by omega) htype hmax
  rw [uuidTypeMax] at hmax
  have hfields : (packUuid timeNow d'.fudge uuidType).toNat / 2 ^ 18
      = 2 ^ 14 * timeNow.toNat + (2 ^ 12 + d'.fudge.toNat) := by
    rw [hword, show 2 ^ 32 * timeNow.toNat = 2 ^ 18 * (2 ^ 14 * timeNow.toNat) by ring, ← add_assoc,
      ← mul_add, Nat.mul_add_div (Nat.two_pow_pos 18), add_assoc, Nat.div_eq_of_lt (by omega),
      add_zero]
  have hlow : (2 ^ 14 * timeNow.toNat + (2 ^ 12 + d'.fudge.toNat)) / 2 ^ 6 % 256
      = 64 + d'.fudge.toNat / 2 ^ 6 := by
    clear hbit hsvrid hword hfields
    omega
  rw [show 2 ^ 24 = 2 ^ 18 * 2 ^ 6 by norm_num, ← Nat.div_div_eq_div_mul, hfields, hlow] at hfudge
  rw [show 2 ^ 23 = 2 ^ 18 * 2 ^ 5 by norm_num, ← Nat.div_div_eq_div_mul, hfields] at hbit
  clear hword hfields hlow
  -- bit 30 is the server id's, so the counter that is read is 64 and more; it is right for 65 only
  have h65 : d'.fudge.toNat = 65 := by omega
  rw [h65] at hbit
  omega

/-- The id of a first call. -/
theorem parseUuid_not_genuine_first :
    ¬ (parseUuid (packUuid 5 0 1)).Genuine 5 0 1 :=
  parseUuid_not_genuine (by decide) (by decide)
    (show genUuidLocal 1 5 ⟨4, 0⟩ = (⟨5, 0⟩, .ok (packUuid 5 0 1)) by decide)

/-- The first id of second 5 has the counter 0 and is read with the counter 64 and the server
id 0. -/
theorem parseUuid_first :
    genUuidLocal 1 5 ⟨4, 0⟩ = (⟨5, 0⟩, .ok (packUuid 5 0 1)) ∧
      parseUuid (packUuid 5 0 1) = ⟨5, 64, 0, 1⟩ ∧
      ¬ (parseUuid (packUuid 5 0 1)).Genuine 5 0 1 := by
  decide

end Zevent.Webgame
