/-
# Interest flags and the kernel (`evloop/epoll.c`)

`struct fdev` caches the events that its descriptor is registered for: `fdev_enable` and
`fdev_disable` change `ev->flags` first, decide from the old and the new flags whether and how
to call `epoll_ctl`, and leave the new flags behind when that call fails.

The flags are the sixteen bits of the source, and the kernel is the events registered for each
descriptor: it refuses to add a descriptor that is registered and to modify or delete one that
is not, and may fail any other call as well.  `flags_match_iff` says which calls keep the
flags in step with the kernel, and `failed_add_skips_enable` what one failure leads to.

`Zevent.Znet.SendPath` has the two flags of this as booleans and leaves out the choice of the
operation; `fdev_refines` says that every sequence of calls here is one there.
-/
import Mathlib.Tactic
import Zevent.Lib.Executions
import Zevent.Znet.SendPath

namespace Zevent.Znet

open Executions

/-! ## The kernel -/

/-- `EV_READ`. -/
def evReadBit : UInt16 := 1

/-- `EV_WRITE`. -/
def evWriteBit : UInt16 := 2

/-- `EPOLLIN` and `EPOLLOUT` of `epev.events`. -/
structure EpollEvents where
  epollin : Bool
  epollout : Bool
deriving DecidableEq, Repr

/-- What `fdev_enable` and `fdev_disable` put into `epev.events`. -/
def epollEvents (flags : UInt16) : EpollEvents where
  epollin := flags &&& evReadBit != 0
  epollout := flags &&& evWriteBit != 0

/-- `EPOLL_CTL_ADD`, `EPOLL_CTL_MOD` and `EPOLL_CTL_DEL`. -/
inductive CtlOp
  | add
  | mod
  | del
deriving DecidableEq, Repr

/-- The kernel can carry out the operation on a descriptor registered for these events. -/
def CtlOp.Admissible : CtlOp → Option EpollEvents → Prop
  | .add, registered => registered = none
  | .mod, registered => registered ≠ none
  | .del, registered => registered ≠ none

instance (op : CtlOp) (registered : Option EpollEvents) : Decidable (op.Admissible registered) :=
  match op with
  | .add => inferInstanceAs (Decidable (_ = _))
  | .mod | .del => inferInstanceAs (Decidable (_ ≠ _))

/-- What a descriptor is registered for after the operation. -/
def CtlOp.result (op : CtlOp) (events : EpollEvents) : Option EpollEvents :=
  match op with
  | .add | .mod => some events
  | .del => none

/-- The interest set of some flags: not registered at all when there are none. -/
def interest (flags : UInt16) : Option EpollEvents :=
  if flags = 0 then none else some (epollEvents flags)

/-- A nonzero interest is registered. -/
theorem interest_ne_none {flags : UInt16} (h : flags ≠ 0) : interest flags ≠ none := by
  rw [interest, if_neg h]
  exact Option.some_ne_none _

/-- An operation that takes the old flags to the new ones: add when there were none, delete when
there are none left, and modify otherwise. -/
structure CtlOp.Fits (op : CtlOp) (old new : UInt16) : Prop where
  add : op = .add ↔ old = 0
  del : op = .del ↔ new = 0

section Fits

variable {op : CtlOp} {old new : UInt16}

/-- On the interest set of the old flags, a fitting operation can be carried out. -/
theorem CtlOp.Fits.admissible (h : op.Fits old new) : op.Admissible (interest old) := by
  cases op with
  | add => rw [CtlOp.Admissible, interest, if_pos (h.add.mp rfl)]
  | mod => exact interest_ne_none fun hzero => by simpa using h.add.mpr hzero
  | del => exact interest_ne_none fun hzero => by simpa using h.add.mpr hzero

/-- It leaves the interest set of the new flags. -/
theorem CtlOp.Fits.result (h : op.Fits old new) :
    op.result (epollEvents new) = interest new := by
  cases op with
  | add => rw [interest, if_neg fun hzero => by simpa using h.del.mpr hzero, CtlOp.result]
  | mod => rw [interest, if_neg fun hzero => by simpa using h.del.mpr hzero, CtlOp.result]
  | del => rw [interest, if_pos (h.del.mp rfl), CtlOp.result]

end Fits

/-! ## The calls -/

/-- `struct fdev`, and what the kernel has registered for each descriptor. -/
structure EpollDev where
  fd : ℕ
  flags : UInt16
  kernel : ℕ → Option EpollEvents

namespace EpollDev

/-- What the kernel has registered for the descriptor. -/
def registered (s : EpollDev) : Option EpollEvents := s.kernel s.fd

/-- `epoll_ctl` with the events of the flags; `ok` says whether it fails for a reason that has
nothing to do with the operation.  The flag of the result is set when it returns zero. -/
def epollCtl (s : EpollDev) (op : CtlOp) (ok : Bool) : EpollDev × Bool :=
  if ok ∧ op.Admissible s.registered then
    ({ s with kernel := Function.update s.kernel s.fd (op.result (epollEvents s.flags)) }, true)
  else (s, false)

/-- The body of `fdev_enable` and `fdev_disable`: the flags, and the call if they are new. -/
def setFlags (s : EpollDev) (flags : UInt16) (op : CtlOp) (ok : Bool) : EpollDev × Bool :=
  if s.flags ≠ flags then epollCtl { s with flags := flags } op ok
  else ({ s with flags := flags }, true)

/-- `fdev_enable`. -/
def fdevEnable (s : EpollDev) (flags : UInt16) (ok : Bool) : EpollDev × Bool :=
  s.setFlags (s.flags ||| flags) (if s.flags = 0 then .add else .mod) ok

/-- `fdev_disable`. -/
def fdevDisable (s : EpollDev) (flags : UInt16) (ok : Bool) : EpollDev × Bool :=
  s.setFlags (s.flags &&& ~~~flags) (if s.flags &&& ~~~flags = 0 then .del else .mod) ok

/-- `fdev_new`. -/
def fdevNew (s : EpollDev) (fd : ℕ) (flags : UInt16) (ok : Bool) : EpollDev × Bool :=
  fdevEnable { s with fd := fd, flags := 0 } flags ok

/-- `fdev_del`. -/
def fdevDel (s : EpollDev) (ok : Bool) : EpollDev × Bool :=
  s.fdevDisable (evReadBit ||| evWriteBit) ok

end EpollDev

/-- The calls on one `struct fdev`, each with the outcome of `epoll_ctl`. -/
inductive FdevCall
  | new (fd : ℕ) (flags : UInt16) (ok : Bool)
  | enable (flags : UInt16) (ok : Bool)
  | disable (flags : UInt16) (ok : Bool)
  | del (ok : Bool)
deriving DecidableEq, Repr

/-- What a caller asks of an `fdev`: to enable or to disable events. -/
inductive Ask
  | enable (flags : EvFlags)
  | disable (flags : EvFlags)
deriving DecidableEq, Repr

/-- The call on the two flags alone, with the outcome of `epoll_ctl`, and whether it returns
zero. -/
def Fdev.ask (ev : Fdev) : Ask × Bool → Bool × Fdev
  | (.enable f, ctlOk) => (Znet.fdevEnable ev f ctlOk).swap
  | (.disable f, ctlOk) => (Znet.fdevDisable ev f ctlOk).swap

namespace EpollDev

/-- One call. -/
def call (s : EpollDev) : FdevCall → Option EpollDev
  | .new fd flags ok => some (s.fdevNew fd flags ok).1
  | .enable flags ok => some (s.fdevEnable flags ok).1
  | .disable flags ok => some (s.fdevDisable flags ok).1
  | .del ok => some (s.fdevDel ok).1

/-- The operation that `fdev_enable` asks for; none when it skips the call. -/
def enableOp (s : EpollDev) (flags : UInt16) : Option CtlOp :=
  if s.flags ≠ s.flags ||| flags then some (if s.flags = 0 then .add else .mod) else none

/-- The operation that `fdev_disable` asks for. -/
def disableOp (s : EpollDev) (flags : UInt16) : Option CtlOp :=
  if s.flags ≠ s.flags &&& ~~~flags then
    some (if s.flags &&& ~~~flags = 0 then .del else .mod)
  else none

/-- The flags are the interest set registered for the descriptor; the operation that the next
call asks for is one the kernel can carry out; and an enable that is skipped asks for nothing
that is not registered. -/
structure InStep (s : EpollDev) : Prop where
  interest : s.registered = Znet.interest s.flags
  enable : ∀ flags op, s.enableOp flags = some op → op.Admissible s.registered
  disable : ∀ flags op, s.disableOp flags = some op → op.Admissible s.registered
  skipped : ∀ flags, s.enableOp flags = none →
    s.registered = Znet.interest (s.flags ||| flags)

/-- The condition: the call leaves flags whose interest set is registered already, or
`epoll_ctl` succeeds and a new `fdev` is for a descriptor that is not registered. -/
def Keeps (s : EpollDev) : FdevCall → Prop
  | .new fd flags ok =>
      s.kernel fd = Znet.interest flags ∨ (ok = true ∧ s.kernel fd = none)
  | .enable flags ok => s.registered = Znet.interest (s.flags ||| flags) ∨ ok = true
  | .disable flags ok => s.registered = Znet.interest (s.flags &&& ~~~flags) ∨ ok = true
  | .del ok =>
      s.registered = Znet.interest (s.flags &&& ~~~(evReadBit ||| evWriteBit)) ∨ ok = true

instance (s : EpollDev) : (c : FdevCall) → Decidable (s.Keeps c)
  | .new .. => inferInstanceAs (Decidable (_ ∨ _ ∧ _))
  | .enable .. | .disable .. | .del .. => inferInstanceAs (Decidable (_ ∨ _))

/-! ## Which calls keep the flags in step -/

variable {s : EpollDev} {flags : UInt16} {ok : Bool}

theorem or_ne_zero {a : UInt16} (h : a ≠ 0) (b : UInt16) : a ||| b ≠ 0 := by
  intro hzero
  exact h (UInt16.or_eq_zero_iff.mp hzero).1

/-- The operation that enabling chooses fits what is registered. -/
theorem enable_fits (hne : s.flags ≠ s.flags ||| flags) :
    CtlOp.Fits (if s.flags = 0 then .add else .mod) s.flags (s.flags ||| flags) := by
  by_cases hzero : s.flags = 0
  · have hnew : s.flags ||| flags ≠ 0 := fun h => hne (hzero.trans h.symm)
    rw [if_pos hzero]
    exact ⟨by simp [hzero], by simp [hnew]⟩
  · rw [if_neg hzero]
    exact ⟨by simp [hzero], by simp [or_ne_zero hzero flags]⟩

theorem disable_fits (hne : s.flags ≠ s.flags &&& ~~~flags) :
    CtlOp.Fits (if s.flags &&& ~~~flags = 0 then .del else .mod) s.flags
      (s.flags &&& ~~~flags) := by
  have hold : s.flags ≠ 0 := by
    intro hzero
    rw [hzero, UInt16.zero_and] at hne
    exact hne rfl
  by_cases hzero : s.flags &&& ~~~flags = 0
  · rw [if_pos hzero]
    exact ⟨by simp [hold], by simp [hzero]⟩
  · rw [if_neg hzero]
    exact ⟨by simp [hold], by simp [hzero]⟩

/-- New flags are in step with the kernel exactly when their interest set was registered
before, or the call succeeds. -/
theorem setFlags_iff {op : CtlOp} (hs : s.registered = Znet.interest s.flags)
    (hop : s.flags ≠ flags → op.Fits s.flags flags) :
    (s.setFlags flags op ok).1.registered = Znet.interest (s.setFlags flags op ok).1.flags
      ↔ s.registered = Znet.interest flags ∨ ok = true := by
  rw [setFlags]
  by_cases hne : s.flags ≠ flags
  · have hadm := (hop hne).admissible
    rw [← hs] at hadm
    rw [if_pos hne, epollCtl]
    cases ok with
    | true =>
        rw [if_pos ⟨rfl, hadm⟩]
        refine ⟨fun _ => Or.inr rfl, fun _ => ?_⟩
        rw [← (hop hne).result]
        exact Function.update_self ..
    | false =>
        rw [if_neg (by simp)]
        exact ⟨Or.inl, fun h => h.resolve_right Bool.false_ne_true⟩
  · rw [if_neg hne]
    rw [not_not] at hne
    subst hne
    exact ⟨fun _ => Or.inl hs, fun _ => hs⟩

/-- Enabling keeps the registration in step unless epoll refuses it. -/
theorem fdevEnable_iff (hs : s.registered = Znet.interest s.flags) :
    (s.fdevEnable flags ok).1.registered = Znet.interest (s.fdevEnable flags ok).1.flags
      ↔ s.registered = Znet.interest (s.flags ||| flags) ∨ ok = true :=
  setFlags_iff hs enable_fits

theorem fdevDisable_iff (hs : s.registered = Znet.interest s.flags) :
    (s.fdevDisable flags ok).1.registered = Znet.interest (s.fdevDisable flags ok).1.flags
      ↔ s.registered = Znet.interest (s.flags &&& ~~~flags) ∨ ok = true :=
  setFlags_iff hs disable_fits

/-- A new `fdev`, whatever was in its memory. -/
theorem fdevNew_iff (fd : ℕ) :
    (s.fdevNew fd flags ok).1.registered = Znet.interest (s.fdevNew fd flags ok).1.flags
      ↔ s.kernel fd = Znet.interest flags ∨ (ok = true ∧ s.kernel fd = none) := by
  by_cases hnone : s.kernel fd = none
  · -- the flags are in step before the call that enables them
    have hs : ({ s with fd := fd, flags := 0 } : EpollDev).registered = Znet.interest 0 := by
      rw [registered, hnone]
      rfl
    rw [fdevNew, fdevEnable_iff hs]
    simp only [registered, UInt16.zero_or, hnone, and_true]
  · -- the kernel refuses to add the descriptor
    have hfail : (s.fdevNew fd flags ok).1.registered = s.kernel fd
        ∧ (s.fdevNew fd flags ok).1.flags = flags := by
      rw [fdevNew, fdevEnable, setFlags, epollCtl]
      simp only [UInt16.zero_or, if_true]
      split_ifs with hne hadm
      · exact absurd hadm.2 hnone
      · exact ⟨rfl, rfl⟩
      · exact ⟨rfl, rfl⟩
    rw [hfail.1, hfail.2]
    simp [hnone]

/-- Everything follows from the agreement of flags and kernel. -/
theorem inStep_iff : s.InStep ↔ s.registered = Znet.interest s.flags := by
  refine ⟨InStep.interest, fun hs => ⟨hs, ?_, ?_, ?_⟩⟩
  · intro flags op hop
    rw [enableOp] at hop
    by_cases hne : s.flags ≠ s.flags ||| flags
    · rw [if_pos hne] at hop
      obtain rfl := Option.some.inj hop
      rw [hs]
      exact (enable_fits hne).admissible
    · rw [if_neg hne] at hop
      cases hop
  · intro flags op hop
    rw [disableOp] at hop
    by_cases hne : s.flags ≠ s.flags &&& ~~~flags
    · rw [if_pos hne] at hop
      obtain rfl := Option.some.inj hop
      rw [hs]
      exact (disable_fits hne).admissible
    · rw [if_neg hne] at hop
      cases hop
  · intro flags hskip
    rw [enableOp] at hskip
    split_ifs at hskip with hne
    · rw [not_not] at hne
      rw [← hne]
      exact hs

/-- **Step lemma.** -/
theorem call_iff (hs : s.InStep) (c : FdevCall) :
    (∃ s', s.call c = some s' ∧ s'.InStep) ↔ s.Keeps c := by
  have hone : ∀ s' : EpollDev, (∃ s'' : EpollDev, some s' = some s'' ∧ s''.InStep)
      ↔ s'.registered = Znet.interest s'.flags := by
    intro s'
    rw [← inStep_iff]
    simp
  rw [inStep_iff] at hs
  cases c with
  | new fd flags ok => exact (hone _).trans (fdevNew_iff fd)
  | enable flags ok => exact (hone _).trans (fdevEnable_iff hs)
  | disable flags ok => exact (hone _).trans (fdevDisable_iff hs)
  | del ok => exact (hone _).trans (fdevDisable_iff hs)

/-! ## The two flags alone -/

/-- The bits of the two flags. -/
def bits (f : EvFlags) : UInt16 :=
  (if f.read then evReadBit else 0) ||| (if f.write then evWriteBit else 0)

/-- The two flags among the bits. -/
def view (flags : UInt16) : EvFlags := ⟨flags &&& evReadBit != 0, flags &&& evWriteBit != 0⟩

/-- The events as flags; none when there is no registration. -/
def viewEvents : Option EpollEvents → EvFlags
  | none => ⟨false, false⟩
  | some e => ⟨e.epollin, e.epollout⟩

/-- What `Zevent.Znet.SendPath` sees of an `fdev`. -/
def toFdev (s : EpollDev) : Fdev := ⟨view s.flags, viewEvents s.registered⟩

/-- The two events are read back from their bits. -/
theorem view_bits (f : EvFlags) : view (bits f) = f := by
  obtain ⟨r, w⟩ := f
  cases r <;> cases w <;> rfl

theorem viewEvents_interest (f : EvFlags) : viewEvents (Znet.interest (bits f)) = f := by
  obtain ⟨r, w⟩ := f
  cases r <;> cases w <;> rfl

/-- Enabling joins events. -/
theorem bits_or (f g : EvFlags) :
    bits f ||| bits g = bits ⟨f.read || g.read, f.write || g.write⟩ := by
  obtain ⟨r, w⟩ := f
  obtain ⟨r', w'⟩ := g
  cases r <;> cases w <;> cases r' <;> cases w' <;> rfl

/-- Disabling takes events away. -/
theorem bits_and_not (f g : EvFlags) :
    bits f &&& ~~~bits g = bits ⟨f.read && !g.read, f.write && !g.write⟩ := by
  obtain ⟨r, w⟩ := f
  obtain ⟨r', w'⟩ := g
  cases r <;> cases w <;> cases r' <;> cases w' <;> rfl

theorem bits_injective : Function.Injective bits := by
  intro f g h
  rw [← view_bits f, h, view_bits]

/-- The body of the two calls as `Zevent.Znet.SendPath` has it, where `epoll_ctl` succeeds if
the kernel can carry the operation out and does. -/
theorem toFdev_setFlags {f g : EvFlags} {op : CtlOp} (hf : s.flags = bits f)
    (hop : s.flags ≠ bits g → op.Fits s.flags (bits g)) (ok : Bool) :
    ∃ ctlOk, (s.registered = Znet.interest s.flags → ctlOk = ok)
      ∧ (s.setFlags (bits g) op ok).1.toFdev
        = ⟨g, if f ≠ g ∧ ctlOk = true then g else viewEvents s.registered⟩
      ∧ (s.setFlags (bits g) op ok).2 = !decide (f ≠ g ∧ ctlOk = false)
      ∧ (s.setFlags (bits g) op ok).1.flags = bits g := by
  rw [setFlags]
  by_cases hne : s.flags ≠ bits g
  · have hfg : f ≠ g := fun h => hne (hf.trans (congrArg bits h))
    rw [if_pos hne]
    by_cases hdone : ok = true ∧ op.Admissible s.registered
    · have hctl : ({ s with flags := bits g } : EpollDev).epollCtl op ok
          = ({ s with
              flags := bits g
              kernel := Function.update s.kernel s.fd (op.result (epollEvents (bits g))) }, true) :=
        if_pos hdone
      rw [hctl]
      refine ⟨true, fun _ => hdone.1.symm, ?_, by simp, rfl⟩
      change Fdev.mk (view (bits g))
        (viewEvents (Function.update s.kernel s.fd (op.result (epollEvents (bits g))) s.fd)) = _
      rw [if_pos ⟨hfg, rfl⟩, view_bits, Function.update_self, (hop hne).result,
        viewEvents_interest]
    · have hctl : ({ s with flags := bits g } : EpollDev).epollCtl op ok
          = ({ s with flags := bits g }, false) := if_neg hdone
      rw [hctl]
      refine ⟨false, fun hs => ?_, ?_, by simp [hfg], rfl⟩
      · -- in step the kernel can carry the operation out
        have hadm := (hop hne).admissible
        rw [← hs] at hadm
        cases ok
        · rfl
        · exact absurd ⟨rfl, hadm⟩ hdone
      · rw [if_neg (by simp), toFdev, view_bits]
        rfl
  · rw [not_not] at hne
    have hfg : f = g := bits_injective (hf.symm.trans hne)
    rw [if_neg (not_not.mpr hne)]
    refine ⟨ok, fun _ => rfl, ?_, by simp [hfg], rfl⟩
    rw [toFdev, view_bits, if_neg fun h => h.1 hfg]
    rfl

/-- The call with the bits of the events, and whether it returns zero. -/
def ask (s : EpollDev) : Ask × Bool → Bool × EpollDev
  | (.enable f, ok) => (s.fdevEnable (bits f) ok).swap
  | (.disable f, ok) => (s.fdevDisable (bits f) ok).swap

/-- The call as one of `FdevCall`. -/
def toCall : Ask × Bool → FdevCall
  | (.enable f, ok) => .enable (bits f) ok
  | (.disable f, ok) => .disable (bits f) ok

/-- A call for the events is the call for their bits. -/
theorem call_toCall (s : EpollDev) (a : Ask × Bool) : s.call (toCall a) = some (s.ask a).2 := by
  obtain ⟨f | f, ok⟩ := a <;> rfl

/-- One call on the two flags, for some outcome of `epoll_ctl`, which is the one that the
kernel gave if the flags are in step. -/
theorem toFdev_ask {f : EvFlags} (hf : s.flags = bits f) (what : Ask) (ok : Bool) :
    ∃ ctlOk g, (s.registered = Znet.interest s.flags → ctlOk = ok)
      ∧ s.toFdev.ask (what, ctlOk) = ((s.ask (what, ok)).1, (s.ask (what, ok)).2.toFdev)
      ∧ (s.ask (what, ok)).2.flags = bits g := by
  have hview : s.toFdev = ⟨f, viewEvents s.registered⟩ := by rw [toFdev, hf, view_bits]
  cases what with
  | enable g =>
      have hnew : s.flags ||| bits g = bits ⟨f.read || g.read, f.write || g.write⟩ := by
        rw [hf, bits_or]
      obtain ⟨ctlOk, hok, hdev, hres, hflags⟩ := toFdev_setFlags hf (hnew ▸ enable_fits) ok
      refine ⟨ctlOk, ⟨f.read || g.read, f.write || g.write⟩, hok, ?_, ?_⟩
      · rw [ask, fdevEnable, hnew, Prod.fst_swap, Prod.snd_swap, hdev, hres, hview, Fdev.ask]
        simp only [Znet.fdevEnable]
        generalize (EvFlags.mk (f.read || g.read) (f.write || g.write)) = new
        cases ctlOk <;> by_cases hfg : f = new <;> simp [hfg]
      · rw [ask, fdevEnable, hnew, Prod.snd_swap, hflags]
  | disable g =>
      have hnew : s.flags &&& ~~~bits g = bits ⟨f.read && !g.read, f.write && !g.write⟩ := by
        rw [hf, bits_and_not]
      obtain ⟨ctlOk, hok, hdev, hres, hflags⟩ := toFdev_setFlags hf (hnew ▸ disable_fits) ok
      refine ⟨ctlOk, ⟨f.read && !g.read, f.write && !g.write⟩, hok, ?_, ?_⟩
      · rw [ask, fdevDisable, hnew, Prod.fst_swap, Prod.snd_swap, hdev, hres, hview, Fdev.ask]
        simp only [Znet.fdevDisable]
        generalize (EvFlags.mk (f.read && !g.read) (f.write && !g.write)) = new
        cases ctlOk <;> by_cases hfg : f = new <;> simp [hfg]
      · rw [ask, fdevDisable, hnew, Prod.snd_swap, hflags]

end EpollDev

/-- **When the flags match the kernel.**  For every descriptor and flags given to `fdev_new`,
whatever was in the memory of the `fdev` and in the kernel, and for every sequence of calls
after it, with every pattern of success and failure of `epoll_ctl`: after each call `ev->flags`
is the interest set registered for the descriptor, the next operation is chosen correctly and
an enable is skipped only when there is nothing to do, if and only if each call leaves flags
whose interest set is registered already, or its `epoll_ctl` succeeds and a new `fdev` is for a
descriptor that is not registered. -/
theorem flags_match_iff (s : EpollDev) (fd : ℕ) (flags : UInt16) (ok : Bool)
    (calls : List FdevCall) :
    Throughout EpollDev.call EpollDev.InStep (s.fdevNew fd flags ok).1 calls
      ↔ s.Keeps (.new fd flags ok)
        ∧ AllSteps EpollDev.call EpollDev.Keeps (s.fdevNew fd flags ok).1 calls := by
  have hstart : (s.fdevNew fd flags ok).1.InStep ↔ s.Keeps (.new fd flags ok) :=
    EpollDev.inStep_iff.trans (EpollDev.fdevNew_iff fd)
  have hiff := fun h : (s.fdevNew fd flags ok).1.InStep =>
    throughout_iff (fun _ => True) (fun _ _ _ _ _ => trivial)
      (fun _ c _ hs _ => EpollDev.call_iff hs c) trivial h
      (allSteps_true EpollDev.call _ calls)
  constructor
  · intro h
    exact ⟨hstart.mp h.start, (hiff h.start).mp h⟩
  · rintro ⟨hnew, hkeeps⟩
    exact (hiff (hstart.mpr hnew)).mpr hkeeps

/-- **A failure that is never repaired.**  The `EPOLL_CTL_ADD` of `fdev_new` fails; the flag is
set all the same, the next `fdev_enable` is skipped and returns zero, and the descriptor is
not registered. -/
theorem failed_add_skips_enable :
    let s : EpollDev := ⟨0, 0, fun _ => none⟩
    let s₁ := (s.fdevNew 7 evReadBit false).1
    ¬ Throughout EpollDev.call EpollDev.InStep s₁ [.enable evReadBit true]
      ∧ s₁.flags = evReadBit ∧ s₁.registered = none
      ∧ s₁.enableOp evReadBit = none ∧ (s₁.fdevEnable evReadBit true).2 = true
      ∧ (s₁.fdevEnable evReadBit true).1.registered = none := by
  refine ⟨fun h => ?_, by decide, by decide, by decide, by decide, by decide⟩
  have hstart := h.start.interest
  revert hstart
  decide

/-- **The kernel and the flags alone.**  Whatever the kernel answers, calls that enable and
disable the two events are calls on the pair of cached and registered flags: they return the
same, and lead to the same flags and events, for some outcomes of `epoll_ctl`.  These are the
outcomes the kernel gave, if every call keeps the flags in step. -/
theorem fdev_refines {s : EpollDev} {f : EvFlags} (hf : s.flags = EpollDev.bits f)
    (asks : List (Ask × Bool)) :
    ∃ asks' : List (Ask × Bool), asks'.map Prod.fst = asks.map Prod.fst
      ∧ respond Fdev.ask s.toFdev asks'
        = ((respond EpollDev.ask s asks).1, (respond EpollDev.ask s asks).2.toFdev)
      ∧ (s.InStep → AllSteps EpollDev.call EpollDev.Keeps s (asks.map EpollDev.toCall) →
        asks' = asks) := by
  induction asks generalizing s f with
  | nil => exact ⟨[], rfl, rfl, fun _ _ => rfl⟩
  | cons a rest ih =>
      obtain ⟨what, ok⟩ := a
      obtain ⟨ctlOk, g, hok, hask, hg⟩ := EpollDev.toFdev_ask hf what ok
      obtain ⟨rest', hwhat, hrespond, hsame⟩ := ih hg
      refine ⟨(what, ctlOk) :: rest', ?_, ?_, fun hs hall => ?_⟩
      · rw [List.map_cons, List.map_cons, hwhat]
      · rw [respond, respond, hask]
        dsimp only
        rw [hrespond]
      · obtain ⟨hkeeps, hrest⟩ := hall
        have hcall := EpollDev.call_toCall s (what, ok)
        obtain ⟨s', hs', hstep⟩ := (EpollDev.call_iff hs _).mpr hkeeps
        rw [hcall, Option.some_inj] at hs'
        rw [hok hs.interest, hsame (hs' ▸ hstep) (hrest _ hcall)]

/-- The `fdev` of a descriptor that is not registered has the read flag all the same: the
`EPOLL_CTL_MOD` of an enable fails, and the next enable is skipped. -/
theorem fdev_refines_unregistered :
    ∃ asks' : List (Ask × Bool), asks'.map Prod.fst = [.enable evWrite, .enable evWrite]
      ∧ respond Fdev.ask ⟨⟨true, false⟩, ⟨false, false⟩⟩ asks'
        = ([false, true], ⟨⟨true, true⟩, ⟨false, false⟩⟩) := by
  obtain ⟨asks', hwhat, hrespond, -⟩ := fdev_refines (s := ⟨7, evReadBit, fun _ => none⟩)
    (f := ⟨true, false⟩) rfl [(.enable evWrite, true), (.enable evWrite, true)]
  exact ⟨asks', hwhat, hrespond⟩

end Zevent.Znet
