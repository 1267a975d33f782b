import Xv6.Buf.Cache
import Xv6.Lib.Chain

/-!
# Xv6.Buf.Ide

The disk driver: `iderw`, `ideintr` and `idestart`.

Any number of processes call `iderw`, each on a buffer whose sleep lock it holds; the rest of the
kernel may do anything to the other buffers. A step is what a process or the interrupt handler does
between two places where it takes or gives back `idelock` or `ptable.lock`. The device is taken to
work on one command at a time, to transfer the block that the command names, and to raise one
interrupt when it is done; further interrupts come only while the queue is empty.

`Served` is the history: the requests in the order of their arrival, those that were given to the
device, and those that an interrupt has completed. `Inv` says that the queue is what has arrived
and is not completed, and that the device works on its head.
-/

namespace Xv6.Buf

open Function List

variable {e : IdeEvent} {pc : IdePc}

abbrev FSSIZE : Nat := 1000

/-- The calls of `panic` in `ide.c`. -/
inductive IdePanic where
  | idestart
  | incorrectBlockno
  | bufNotLocked
  | nothingToDo
  | noDisk1
  /-- Not a call: the loop over the queue does not end. -/
  | hang
  deriving DecidableEq, Repr

/-- What `idestart` writes to the device: the drive, the sector, and for a write the data. -/
structure Command where
  drive : Nat
  sector : Nat
  write : Option Block

/-- `finished` is the command whose interrupt is pending. -/
inductive Device where
  | ready
  | working (c : Command)
  | finished (c : Command)

/-- Where a process is. `n` is the number of its request. -/
inductive IdePc where
  | idle
  /-- `acquire(&idelock)` at the start of `iderw`. -/
  | entering (b : Fin NBUF)
  /-- `sleep`, with `idelock` and not yet with `ptable.lock`. -/
  | drowsy (b : Fin NBUF) (n : Nat)
  /-- `sleep`, with `ptable.lock` only. -/
  | dozing (b : Fin NBUF) (n : Nat)
  | sleeping (b : Fin NBUF) (n : Nat)
  /-- `acquire(&idelock)` at the end of `sleep`. -/
  | woken (b : Fin NBUF) (n : Nat)
  deriving DecidableEq, Repr

namespace IdePc

/-- The buffer that the process has called `iderw` with. -/
def buffer : IdePc → Option (Fin NBUF)
  | .idle => none
  | .entering b | .drowsy b _ | .dozing b _ | .sleeping b _ | .woken b _ => some b

def request : IdePc → Option (Fin NBUF × Nat)
  | .idle | .entering _ => none
  | .drowsy b n | .dozing b n | .sleeping b n | .woken b n => some (b, n)

def holdsIde : IdePc → Bool
  | .drowsy _ _ => true
  | _ => false

def wake (b : Fin NBUF) : IdePc → IdePc
  | .sleeping b' n => if b' = b then .woken b' n else .sleeping b' n
  | pc => pc

theorem buffer_wake (b : Fin NBUF) (pc : IdePc) : (pc.wake b).buffer = pc.buffer := by
  cases pc with
  | sleeping b' n => simp only [wake]; split <;> rfl
  | _ => rfl

theorem request_wake (b : Fin NBUF) (pc : IdePc) : (pc.wake b).request = pc.request := by
  cases pc with
  | sleeping b' n => simp only [wake]; split <;> rfl
  | _ => rfl

theorem holdsIde_wake (b : Fin NBUF) (pc : IdePc) : (pc.wake b).holdsIde = pc.holdsIde := by
  cases pc with
  | sleeping b' n => simp only [wake]; split <;> rfl
  | _ => rfl

theorem entering_of_wake {b x : Fin NBUF} (h : pc.wake b = .entering x) : pc = .entering x := by
  cases pc with
  | sleeping b' n =>
    simp only [wake] at h
    split at h <;> cases h
  | _ => exact h

theorem buffer_of_request {b : Fin NBUF} {n : Nat} (h : pc.request = some (b, n)) :
    pc.buffer = some b := by
  cases pc with
  | idle => cases h
  | entering b' => cases h
  | _ => cases h; rfl

end IdePc

structure Served where
  arrived : List (Fin NBUF)
  started : List (Fin NBUF)
  served : List (Fin NBUF)

/-- Who holds `idelock`. -/
inductive IdeHolder where
  | proc (p : Nat)
  | intr
  deriving DecidableEq, Repr

structure Ide where
  buf : Fin NBUF → Buffer
  /-- `idequeue`, and `qnext` of each buffer. -/
  queue : Option (Fin NBUF) → Option (Fin NBUF)
  device : Device
  disk : Nat → Nat → Block
  havedisk1 : Bool
  lock : Option IdeHolder
  ptable : Option Nat
  /-- The buffer that `ideintr` has completed and not yet called `wakeup` for. -/
  handler : Option (Fin NBUF)
  pc : Nat → IdePc
  past : Served

/-- `(b->flags & (B_VALID|B_DIRTY)) == B_VALID`. -/
def Buffer.done (x : Buffer) : Prop := x.valid = true ∧ x.dirty = false

instance (x : Buffer) : Decidable x.done := inferInstanceAs (Decidable (_ ∧ _))

namespace Ide

def goto (s : Ide) (p : Nat) (pc : IdePc) : Ide := { s with pc := update s.pc p pc }

/-- The command that `idestart` gives for a buffer; a block is one sector. -/
def command (x : Buffer) : Command :=
  ⟨x.dev % 2, x.blockno, if x.dirty then some x.data else none⟩

def idestart (s : Ide) (b : Option (Fin NBUF)) : Except IdePanic Ide :=
  match b with
  | none => .error .idestart
  | some b =>
    if FSSIZE ≤ (s.buf b).blockno then .error .incorrectBlockno
    else .ok { s with
      device := .working (command (s.buf b))
      past := { s.past with started := s.past.started ++ [b] } }

/-- The tests of `iderw`. -/
def check (s : Ide) (p : Nat) (b : Fin NBUF) : Except IdePanic Unit :=
  if (s.buf b).holder ≠ some p then .error .bufNotLocked
  else if (s.buf b).done then .error .nothingToDo
  else if (s.buf b).dev ≠ 0 ∧ ¬ s.havedisk1 then .error .noDisk1
  else .ok ()

/-- `iderw` from `b->qnext = 0` to the start of the device. -/
def enqueue (s : Ide) (b : Fin NBUF) : Except IdePanic Ide :=
  match Chain.append s.queue (NBUF + 1) b with
  | none => .error .hang
  | some queue =>
    let s := { s with queue, past := { s.past with arrived := s.past.arrived ++ [b] } }
    if queue none = some b then s.idestart (queue none) else .ok s

/-- The test of the loop in `iderw`, by a process that has `idelock`: it returns, or sleeps. -/
def await (s : Ide) (p : Nat) (b : Fin NBUF) (n : Nat) : Ide :=
  if (s.buf b).done then { s with lock := none }.goto p .idle
  else { s with lock := some (.proc p) }.goto p (.drowsy b n)

/-- What the device delivers on `insl`. -/
def input (s : Ide) : Block :=
  match s.device with
  | .finished c => s.disk c.drive c.sector
  | _ => Block.zero

/-- `ideintr` up to `wakeup`, with the buffer that it takes off the queue. -/
def complete (s : Ide) (b : Fin NBUF) : Ide :=
  let x := s.buf b
  { s with
    queue := Chain.pop s.queue b
    buf := update s.buf b
      { x with data := if x.dirty then x.data else s.input, valid := true, dirty := false }
    device := .ready
    lock := some .intr
    handler := some b
    past := { s.past with served := s.past.served ++ [b] } }

/-- The end of `ideintr`: start the disk on the next buffer in the queue. -/
def startNext (s : Ide) : Except IdePanic Ide :=
  match s.queue none with
  | none => .ok s
  | some b => s.idestart (some b)

/-- The device has done what the command says. -/
def transfer (disk : Nat → Nat → Block) (c : Command) : Nat → Nat → Block :=
  match c.write with
  | none => disk
  | some x => update disk c.drive (update (disk c.drive) c.sector x)

end Ide

inductive IdeEvent where
  | call (p : Nat) (b : Fin NBUF)
  | enqueue (p : Nat)
  | doze (p : Nat)
  | sleep (p : Nat)
  | await (p : Nat)
  | transfer
  | intr
  | spurious
  | wakeup
  | kill (p : Nat)
  | takePtable (p : Nat)
  | givePtable (p : Nat)
  | other

namespace Ide

def Init (s : Ide) : Prop :=
  s.queue none = none ∧ s.device = .ready ∧ s.lock = none ∧ s.handler = none ∧
    (∀ p, s.pc p = .idle) ∧ s.past = ⟨[], [], []⟩

inductive Step : Ide → IdeEvent → Ide → Prop where
  | call {s : Ide} {p : Nat} {b : Fin NBUF} :
      s.pc p = .idle → s.check p b = .ok () → Step s (.call p b) (s.goto p (.entering b))
  | enqueue {s s' : Ide} {p : Nat} {b : Fin NBUF} :
      s.pc p = .entering b → s.lock = none → s.enqueue b = .ok s' →
      Step s (.enqueue p) (s'.await p b s.past.arrived.length)
  | doze {s : Ide} {p n : Nat} {b : Fin NBUF} :
      s.pc p = .drowsy b n → s.ptable = none →
      Step s (.doze p) ({ s with lock := none, ptable := some p }.goto p (.dozing b n))
  | sleep {s : Ide} {p n : Nat} {b : Fin NBUF} :
      s.pc p = .dozing b n →
      Step s (.sleep p) ({ s with ptable := none }.goto p (.sleeping b n))
  | await {s : Ide} {p n : Nat} {b : Fin NBUF} :
      s.pc p = .woken b n → s.lock = none → Step s (.await p) (s.await p b n)
  | transfer {s : Ide} {c : Command} :
      s.device = .working c →
      Step s .transfer { s with device := .finished c, disk := transfer s.disk c }
  | intr {s : Ide} {c : Command} {b : Fin NBUF} :
      s.device = .finished c → s.lock = none → s.queue none = some b → Step s .intr (s.complete b)
  | spurious {s : Ide} : s.lock = none → s.queue none = none → Step s .spurious s
  | wakeup {s s' : Ide} {b : Fin NBUF} :
      s.handler = some b → s.ptable = none → s.startNext = .ok s' →
      Step s .wakeup { s' with pc := fun p => (s.pc p).wake b, handler := none, lock := none }
  | kill {s : Ide} {p n : Nat} {b : Fin NBUF} :
      s.pc p = .sleeping b n → s.ptable = none → Step s (.kill p) (s.goto p (.woken b n))
  | takePtable {s : Ide} {p : Nat} :
      s.ptable = none → Step s (.takePtable p) { s with ptable := some p }
  | givePtable {s : Ide} {p : Nat} :
      s.ptable = some p → (∀ b n, s.pc p ≠ .dozing b n) →
      Step s (.givePtable p) { s with ptable := none }
  | other {s : Ide} {buf : Fin NBUF → Buffer} :
      (∀ p b, (s.pc p).buffer = some b → buf b = s.buf b) → Step s .other { s with buf }

/-- The device works on the first request of the queue, unless the handler is about to start it. -/
def OnHead (s : Ide) (q : List (Fin NBUF)) : Prop :=
  match q with
  | [] => s.device = .ready
  | b :: _ =>
    if s.handler = none then
      s.device = .working (command (s.buf b)) ∨ s.device = .finished (command (s.buf b))
    else s.device = .ready

structure Inv (s : Ide) (q : List (Fin NBUF)) : Prop where
  path : Chain.Path s.queue none q
  nodup : q.Nodup
  arrived : s.past.arrived = s.past.served ++ q
  started : s.past.started = s.past.served ++ (if s.handler = none then q.take 1 else [])
  device : s.OnHead q
  pending : ∀ b ∈ q, ¬ (s.buf b).done
  waiter : ∀ b ∈ q, ∃ p n, (s.pc p).request = some (b, n)
  owner : ∀ p b, (s.pc p).buffer = some b → (s.buf b).holder = some p
  entering : ∀ p b, s.pc p = .entering b → ¬ (s.buf b).done
  request : ∀ p b n, (s.pc p).request = some (b, n) →
    s.past.arrived[n]? = some b ∧ (n < s.past.served.length → (s.buf b).done)
  locked : ∀ p, (s.pc p).holdsIde = true → s.lock = some (.proc p)
  handling : s.handler ≠ none → s.lock = some .intr

variable {s s' : Ide} {q : List (Fin NBUF)} {p n : Nat} {b : Fin NBUF}

theorem Inv.init (h : Init s) : Inv s [] := by
  obtain ⟨hq, hd, hl, hh, hp, hpast⟩ := h
  refine ⟨hq, nodup_nil, ?_, ?_, ?_, ?_, ?_, ?_, ?_, ?_, ?_, ?_⟩
  · rw [hpast]
    rfl
  · rw [hpast]
    simp
  · exact hd
  all_goals simp [hp, hh, IdePc.buffer, IdePc.request, IdePc.holdsIde]

theorem Inv.idle_handler (h : Inv s q) (hl : s.lock = none) : s.handler = none := by
  by_contra hh
  have := h.handling hh
  rw [hl] at this
  cases this

theorem Inv.entering_new (h : Inv s q) (hp : s.pc p = .entering b) : b ∉ q := by
  intro hb
  obtain ⟨p', n, hn⟩ := h.waiter b hb
  have h1 := h.owner p' b (IdePc.buffer_of_request hn)
  have h2 := h.owner p b (by rw [hp]; rfl)
  rw [h1] at h2
  obtain rfl := Option.some.inj h2
  rw [hp] at hn
  cases hn

theorem Inv.mem_iff (h : Inv s q) :
    b ∈ q ↔ ∃ p n, (s.pc p).request = some (b, n) ∧ s.past.served.length ≤ n := by
  constructor
  · intro hb
    obtain ⟨p, n, hn⟩ := h.waiter b hb
    refine ⟨p, n, hn, ?_⟩
    by_contra hlt
    exact h.pending b hb ((h.request p b n hn).2 (by omega))
  · rintro ⟨p, n, hn, hle⟩
    have hget := (h.request p b n hn).1
    rw [h.arrived, getElem?_append_right hle] at hget
    exact mem_of_getElem? hget

theorem Inv.move (h : Inv s q) {lock : Option IdeHolder} {ptable : Option Nat}
    (hbuf : pc.buffer = (s.pc p).buffer) (hreq : pc.request = (s.pc p).request)
    (hent : ∀ b, pc ≠ .entering b) (hlock : pc.holdsIde = true → lock = some (.proc p))
    (hlock' : ∀ x, x ≠ .proc p → s.lock = some x → lock = some x) :
    Inv ({ s with lock, ptable }.goto p pc) q := by
  have hbuf' : ∀ x, (update s.pc p pc x).buffer = (s.pc x).buffer := fun x =>
    update_cases x hbuf fun _ _ => rfl
  have hreq' : ∀ x, (update s.pc p pc x).request = (s.pc x).request := fun x =>
    update_cases x hreq fun _ _ => rfl
  refine ⟨h.path, h.nodup, h.arrived, h.started, h.device, h.pending, ?_, ?_, ?_, ?_, ?_, ?_⟩
  all_goals simp only [goto]
  · intro b hb
    obtain ⟨x, n, hx⟩ := h.waiter b hb
    exact ⟨x, n, (hreq' x).trans hx⟩
  · intro x b hx
    exact h.owner x b ((hbuf' x).symm.trans hx)
  · exact fun x => update_cases x (fun b hx => absurd hx (hent b)) fun x _ => h.entering x
  · intro x b n hx
    exact h.request x b n ((hreq' x).symm.trans hx)
  · refine fun x => update_cases x hlock fun x hxp hx => hlock' _ ?_ (h.locked x hx)
    intro heq
    exact hxp (IdeHolder.proc.inj heq)
  · intro hx
    exact hlock' .intr IdeHolder.noConfusion (h.handling hx)

theorem Inv.call (h : Inv s q) (hp : s.pc p = .idle) (hc : s.check p b = .ok ()) :
    Inv (s.goto p (.entering b)) q := by
  obtain ⟨hheld, hnot⟩ : (s.buf b).holder = some p ∧ ¬ (s.buf b).done := by
    simp only [check] at hc
    split at hc
    · cases hc
    · rename_i hh
      split at hc
      · cases hc
      · rename_i hd
        exact ⟨not_not.mp hh, hd⟩
  have hreq : ∀ x, (update s.pc p (.entering b) x).request = (s.pc x).request := by
    refine fun x => update_cases x ?_ fun _ _ => rfl
    rw [hp]
    rfl
  refine ⟨h.path, h.nodup, h.arrived, h.started, h.device, h.pending, ?_, ?_, ?_, ?_, ?_,
    h.handling⟩
  all_goals simp only [goto]
  · intro b' hb
    obtain ⟨x, n, hx⟩ := h.waiter b' hb
    exact ⟨x, n, (hreq x).trans hx⟩
  · refine fun x => update_cases x (fun b' hx => ?_) fun x _ => h.owner x
    cases hx
    exact hheld
  · refine fun x => update_cases x (fun b' hx => ?_) fun x _ => h.entering x
    cases hx
    exact hnot
  · intro x b' n hx
    exact h.request x b' n ((hreq x).symm.trans hx)
  · exact fun x => update_cases x (fun hx => by cases hx) fun x _ => h.locked x

theorem idestart_some {s' : Ide} (h : s.idestart (some b) = .ok s') : s' = { s with
      device := .working (command (s.buf b))
      past := { s.past with started := s.past.started ++ [b] } } := by
  simp only [idestart] at h
  split at h
  · cases h
  · exact (Except.ok.inj h).symm

theorem Inv.enqueue_ok (h : Inv s q) (hp : s.pc p = .entering b) (hl : s.lock = none)
    (hs : s.enqueue b = .ok s') : ∃ queue device started, s' = { s with
        queue, device, past := ⟨s.past.arrived ++ [b], started, s.past.served⟩ } ∧
      Chain.Path queue none (q ++ [b]) ∧
      started = s.past.served ++ (if s.handler = none then (q ++ [b]).take 1 else []) ∧
      OnHead { s with device } (q ++ [b]) ∧ ∀ c, device = .finished c → s.device = device := by
  have hnew := h.entering_new hp
  have hlen : q.length < NBUF + 1 := by
    have := h.nodup.length_le_card
    rw [Fintype.card_fin] at this
    omega
  have hnone := h.idle_handler hl
  obtain ⟨queue, happ, hpath⟩ := h.path.append h.nodup hnew hlen
  have hstarted := h.started
  have hdev := h.device
  simp only [enqueue, happ] at hs
  have hhead := hpath.head
  cases q with
  | nil =>
    have hfirst : queue none = some b := hhead
    rw [if_pos hfirst, hfirst] at hs
    refine ⟨queue, _, _, idestart_some hs, hpath, ?_, ?_, fun c hc => Device.noConfusion hc⟩
    · simp only [hstarted, hnone, if_true, take_nil, append_nil, nil_append]
      rfl
    · simp [OnHead, hnone]
  | cons a q =>
    have hne : queue none ≠ some b := by
      rw [hhead]
      intro heq
      obtain rfl := Option.some.inj heq
      exact hnew mem_cons_self
    rw [if_neg hne] at hs
    refine ⟨queue, s.device, s.past.started, (Except.ok.inj hs).symm, hpath, ?_, ?_, fun _ _ => rfl⟩
    · simpa using hstarted
    · simpa [OnHead] using hdev

theorem Inv.enqueue (h : Inv s q) (hp : s.pc p = .entering b) (hl : s.lock = none)
    (hs : s.enqueue b = .ok s') : Inv (s'.await p b s.past.arrived.length) (q ++ [b]) := by
  obtain ⟨queue, device, started, rfl, hpath, hstarted, hdev, -⟩ := h.enqueue_ok hp hl hs
  have hnew := h.entering_new hp
  have hnot := h.entering p b hp
  have hheld := h.owner p b (by rw [hp]; rfl)
  generalize hN : s.past.arrived.length = N
  rw [await, if_neg hnot]
  refine ⟨hpath, ?_, ?_, hstarted, hdev, ?_, ?_, ?_, ?_, ?_, ?_, ?_⟩
  any_goals simp only [goto]
  · rw [nodup_append]
    exact ⟨h.nodup, nodup_singleton b, fun x hx y hy heq => by
      rw [mem_singleton.mp hy] at heq
      exact hnew (heq ▸ hx)⟩
  · rw [h.arrived, append_assoc]
  · intro x hx
    rcases mem_append.mp hx with hx | hx
    · exact h.pending x hx
    · rw [mem_singleton.mp hx]
      exact hnot
  · intro x hx
    rcases mem_append.mp hx with hx | hx
    · obtain ⟨y, m, hy⟩ := h.waiter x hx
      have hne : y ≠ p := by
        rintro rfl
        rw [hp] at hy
        cases hy
      exact ⟨y, m, by rw [update_of_ne hne, hy]⟩
    · rw [mem_singleton.mp hx]
      exact ⟨p, N, by rw [update_self]; rfl⟩
  · refine fun x => update_cases x (fun b' hx => ?_) fun x _ => h.owner x
    cases hx
    exact hheld
  · exact fun x => update_cases x (fun b' hx => by cases hx) fun x _ => h.entering x
  · refine fun x => update_cases x (fun b' m hx => ?_) fun x _ b' m hx => ?_
    · cases hx
      refine ⟨by rw [← hN, getElem?_concat_length], fun hlt => ?_⟩
      have := congrArg List.length h.arrived
      rw [length_append] at this
      omega
    · obtain ⟨hget, hdone⟩ := h.request x b' m hx
      refine ⟨?_, hdone⟩
      rw [getElem?_append_left (List.getElem?_eq_some_iff.mp hget).1, hget]
  · refine fun x => update_cases x (fun _ => rfl) fun x _ hx => ?_
    have := h.locked x hx
    rw [hl] at this
    cases this
  · exact absurd (h.idle_handler hl)

theorem Inv.leave (h : Inv s q) (hp : s.pc p = .woken b n) (hd : (s.buf b).done) :
    Inv (s.goto p .idle) q := by
  refine ⟨h.path, h.nodup, h.arrived, h.started, h.device, h.pending, ?_, ?_, ?_, ?_, ?_,
    h.handling⟩
  all_goals simp only [goto]
  · intro b' hb
    obtain ⟨x, m, hx⟩ := h.waiter b' hb
    have hne : x ≠ p := by
      rintro rfl
      rw [hp] at hx
      cases hx
      exact h.pending b hb hd
    exact ⟨x, m, by rw [update_of_ne hne, hx]⟩
  · exact fun x => update_cases x (fun b' hx => by cases hx) fun x _ => h.owner x
  · exact fun x => update_cases x (fun b' hx => by cases hx) fun x _ => h.entering x
  · exact fun x => update_cases x (fun b' m hx => by cases hx) fun x _ => h.request x
  · exact fun x => update_cases x (fun hx => by cases hx) fun x _ => h.locked x

theorem Inv.complete (h : Inv s (b :: q)) (hl : s.lock = none) : Inv (s.complete b) q := by
  have hbuf : ∀ x, x ≠ b → (s.complete b).buf x = s.buf x := fun x hx =>
    update_of_ne hx _ _
  have hdone : ((s.complete b).buf b).done := by
    simp only [Ide.complete, update_self]
    exact ⟨rfl, rfl⟩
  have hholder : ∀ x, ((s.complete b).buf x).holder = (s.buf x).holder := by
    intro x
    by_cases hx : x = b
    · subst hx
      simp only [Ide.complete, update_self]
    · rw [hbuf x hx]
  obtain ⟨hbq, hnd⟩ := nodup_cons.mp h.nodup
  have hnone := h.idle_handler hl
  refine ⟨h.path.pop, hnd, ?_, ?_, ?_, ?_, ?_, ?_, ?_, ?_, ?_, fun _ => rfl⟩
  · show s.past.arrived = (s.past.served ++ [b]) ++ q
    rw [h.arrived, append_assoc]
    rfl
  · show s.past.started = (s.past.served ++ [b]) ++ if some b = none then q.take 1 else []
    rw [h.started, if_pos hnone, if_neg (Option.some_ne_none b)]
    simp
  · cases q with
    | nil => rfl
    | cons a q => simp [OnHead, Ide.complete]
  · intro x hx
    rw [hbuf x fun heq => hbq (heq ▸ hx)]
    exact h.pending x (mem_cons_of_mem b hx)
  · intro x hx
    exact h.waiter x (mem_cons_of_mem b hx)
  · intro x b' hx
    rw [hholder]
    exact h.owner x b' hx
  · intro x b' hx
    have hne : b' ≠ b := by
      rintro rfl
      exact h.entering_new hx mem_cons_self
    rw [hbuf b' hne]
    exact h.entering x b' hx
  · intro x b' m hx
    obtain ⟨hget, hserved⟩ := h.request x b' m hx
    refine ⟨hget, fun hlt => ?_⟩
    have hlt : m < s.past.served.length + 1 := by simpa [Ide.complete] using hlt
    by_cases hm : m < s.past.served.length
    · have hd := hserved hm
      have hne : b' ≠ b := by
        rintro rfl
        exact h.pending b' mem_cons_self hd
      rw [hbuf b' hne]
      exact hd
    · obtain rfl : m = s.past.served.length := by omega
      rw [h.arrived, getElem?_append_right (Nat.le_refl _), Nat.sub_self] at hget
      obtain rfl : b = b' := Option.some.inj hget
      exact hdone
  · intro x hx
    have := h.locked x hx
    rw [hl] at this
    cases this

theorem startNext_ok (h : Inv s q) (hs : s.startNext = .ok s') (hh : s.handler ≠ none) :
    ∃ device started, s' = { s with device, past := ⟨s.past.arrived, started, s.past.served⟩ } ∧
      started = s.past.served ++ q.take 1 ∧ OnHead { s with device, handler := none } q := by
  have hstarted := h.started
  have hdev := h.device
  rw [if_neg hh, append_nil] at hstarted
  rw [startNext, h.path.head] at hs
  cases q with
  | nil => exact ⟨s.device, s.past.started, (Except.ok.inj hs).symm, by simpa using hstarted, hdev⟩
  | cons a q =>
    refine ⟨_, _, idestart_some hs, ?_, ?_⟩
    · rw [hstarted]
      rfl
    · simp [OnHead]

theorem Inv.wakeup (h : Inv s q) (hh : s.handler = some b) (hs : s.startNext = .ok s') :
    Inv { s' with pc := fun p => (s.pc p).wake b, handler := none, lock := none } q := by
  have hsome : s.handler ≠ none := by
    rw [hh]
    exact Option.some_ne_none b
  have hlock := h.handling hsome
  obtain ⟨device, started, rfl, hstarted, hdev⟩ := startNext_ok h hs hsome
  refine ⟨h.path, h.nodup, h.arrived, ?_, hdev, h.pending, ?_, ?_, ?_, ?_, ?_, ?_⟩
  · simpa using hstarted
  · intro x hx
    obtain ⟨p, n, hp⟩ := h.waiter x hx
    exact ⟨p, n, by rw [IdePc.request_wake, hp]⟩
  · intro p x hx
    rw [IdePc.buffer_wake] at hx
    exact h.owner p x hx
  · intro p x hx
    exact h.entering p x (IdePc.entering_of_wake hx)
  · intro p x n hx
    rw [IdePc.request_wake] at hx
    exact h.request p x n hx
  · intro p hp
    rw [IdePc.holdsIde_wake] at hp
    have := h.locked p hp
    rw [hlock] at this
    cases this
  · intro hno
    exact absurd rfl hno

theorem Inv.other (h : Inv s q) {buf : Fin NBUF → Buffer}
    (hbuf : ∀ p b, (s.pc p).buffer = some b → buf b = s.buf b) : Inv { s with buf } q := by
  have hqueue : ∀ b ∈ q, buf b = s.buf b := by
    intro b hb
    obtain ⟨p, n, hp⟩ := h.waiter b hb
    exact hbuf p b (IdePc.buffer_of_request hp)
  refine ⟨h.path, h.nodup, h.arrived, h.started, ?_, ?_, h.waiter, ?_, ?_, ?_, h.locked, h.handling⟩
  · have hdev := h.device
    cases q with
    | nil => exact hdev
    | cons a q =>
      simp only [OnHead] at hdev ⊢
      rw [hqueue a mem_cons_self]
      exact hdev
  · intro b hb
    simp only [hqueue b hb]
    exact h.pending b hb
  · intro p b hp
    simp only [hbuf p b hp]
    exact h.owner p b hp
  · intro p b hp
    simp only [hbuf p b (by rw [hp]; rfl)]
    exact h.entering p b hp
  · intro p b n hp
    simp only [hbuf p b (IdePc.buffer_of_request hp)]
    exact h.request p b n hp

theorem Inv.step (h : Inv s q) (hs : Step s e s') : ∃ q', Inv s' q' := by
  cases hs with
  | call hp hc => exact ⟨q, h.call hp hc⟩
  | enqueue hp hl hok => exact ⟨_, h.enqueue hp hl hok⟩
  | @doze p n b hp hpt =>
    have hlock := h.locked p (by rw [hp]; rfl)
    refine ⟨q, h.move (by rw [hp]; rfl) (by rw [hp]; rfl) (fun _ => IdePc.noConfusion)
      (fun hx => absurd hx Bool.false_ne_true) ?_⟩
    intro x hx hl
    rw [hlock] at hl
    exact absurd (Option.some.inj hl).symm hx
  | sleep hp | kill hp hpt =>
    exact ⟨q, h.move (by rw [hp]; rfl) (by rw [hp]; rfl) (fun _ => IdePc.noConfusion)
      (fun hx => absurd hx Bool.false_ne_true) fun _ _ => id⟩
  | @await p n b hp hl =>
    refine ⟨q, ?_⟩
    rw [await]
    split
    · rename_i hd
      have := h.leave hp hd
      rwa [← hl]
    · refine h.move (by rw [hp]; rfl) (by rw [hp]; rfl) (fun _ => IdePc.noConfusion)
        (fun _ => rfl) ?_
      intro x _ hx
      rw [hl] at hx
      cases hx
  | @transfer c hd =>
    refine ⟨q, { h with device := ?_ }⟩
    have hdev := h.device
    cases q with
    | nil =>
      rw [OnHead, hd] at hdev
      cases hdev
    | cons a q =>
      simp only [OnHead] at hdev ⊢
      split at hdev
      · rename_i hn
        rw [if_pos hn]
        rw [hd] at hdev
        rcases hdev with heq | heq
        · exact .inr (by rw [Device.working.inj heq])
        · cases heq
      · rw [hd] at hdev
        cases hdev
  | @intr c b hd hl hq =>
    have hhead := h.path.head
    rw [hq] at hhead
    cases q with
    | nil => cases hhead
    | cons a q =>
      obtain rfl := Option.some.inj hhead
      exact ⟨q, h.complete hl⟩
  | spurious _ _ => exact ⟨q, h⟩
  | wakeup hh _ hok => exact ⟨q, h.wakeup hh hok⟩
  | takePtable _ | givePtable _ _ => exact ⟨q, { h with }⟩
  | other hbuf => exact ⟨q, h.other hbuf⟩

/-- The sector of a finished write holds what was written. -/
def Written (s : Ide) : Prop :=
  ∀ c x, s.device = .finished c → c.write = some x → s.disk c.drive c.sector = x

theorem Written.step (hi : Inv s q) (h : Written s) (hs : Step s e s') : Written s' := by
  cases hs with
  | @enqueue _ p b hp hl hok =>
    obtain ⟨queue, device, started, rfl, -, -, -, hkeep⟩ := hi.enqueue_ok hp hl hok
    have hnot := hi.entering p b hp
    rw [await, if_neg hnot]
    intro c x hd hx
    exact h c x ((hkeep c hd).trans hd) hx
  | await hp hl =>
    rw [await]
    split
    · exact h
    · exact h
  | @transfer c hd =>
    intro c' x hc hx
    obtain rfl := Device.finished.inj hc
    simp only [transfer, hx, update_self]
  | intr hd hl hq =>
    intro c x hc
    cases hc
  | @wakeup s1 b hh _ hok =>
    intro c x hc hx
    simp only [startNext] at hok
    split at hok
    · obtain rfl := Except.ok.inj hok
      exact h c x hc hx
    · rw [idestart_some hok] at hc
      cases hc
  | _ => exact h

theorem reach_inv (h : Reach Init Step s) : (∃ q, Inv s q) ∧ Written s := by
  induction h with
  | start hi =>
    refine ⟨⟨[], .init hi⟩, fun c x hd => ?_⟩
    rw [hi.2.1] at hd
    cases hd
  | step _ hst ih =>
    obtain ⟨⟨q, hq⟩, hw⟩ := ih
    exact ⟨hq.step hst, hw.step hq hst⟩

theorem Inv.return_cases (h : Inv s q) (hs : Step s e s')
    (hp : (s.pc p).buffer = some b) (hidle : s'.pc p = .idle) :
    ∃ n, s.pc p = .woken b n ∧ (s.buf b).done ∧ s'.buf = s.buf := by
  have hne : s.pc p ≠ .idle := by
    intro h0
    rw [h0] at hp
    cases hp
  -- only the step that puts a process at `idle` concerns the process itself
  have hgo : ∀ {t : Ide} {x : Nat} {pc : IdePc}, t.pc = s.pc → (t.goto x pc).pc p = .idle →
      p = x ∧ pc = .idle := by
    intro t x pc ht hx
    by_cases hpx : p = x
    · subst hpx
      exact ⟨rfl, by simpa [goto] using hx⟩
    · simp only [goto, update_of_ne hpx, ht] at hx
      exact absurd hx hne
  cases hs with
  | call => exact absurd (hgo rfl hidle).2 IdePc.noConfusion
  | @enqueue _ x b' hx hl hok =>
    obtain ⟨queue, device, started, rfl, -⟩ := h.enqueue_ok hx hl hok
    rw [await, if_neg (h.entering x b' hx)] at hidle
    exact absurd (hgo rfl hidle).2 IdePc.noConfusion
  | doze => exact absurd (hgo rfl hidle).2 IdePc.noConfusion
  | sleep => exact absurd (hgo rfl hidle).2 IdePc.noConfusion
  | @await x n b' hx hl =>
    rw [await] at hidle ⊢
    split at hidle
    · rename_i hd
      obtain ⟨rfl, -⟩ := hgo rfl hidle
      rw [hx] at hp
      cases hp
      exact ⟨n, hx, hd, by rw [if_pos hd]; rfl⟩
    · exact absurd (hgo rfl hidle).2 IdePc.noConfusion
  | @wakeup s1 x hh _ hok =>
    simp only at hidle
    rw [← IdePc.buffer_wake x, hidle] at hp
    cases hp
  | kill => exact absurd (hgo rfl hidle).2 IdePc.noConfusion
  | _ => exact absurd hidle hne

/-- The state of the driver between its steps, and what an interrupt and a return mean. -/
structure Serves (s : Ide) (q : List (Fin NBUF)) : Prop where
  /-- The queue holds each pending buffer once, in the order of arrival. -/
  queued : Chain.Path s.queue none q ∧ q.Nodup ∧ s.past.arrived = s.past.served ++ q
  pending : ∀ b, b ∈ q ↔ ∃ p n, (s.pc p).request = some (b, n) ∧ s.past.served.length ≤ n
  /-- Every served request was started once, in order, and so was the head. -/
  started : s.past.started = s.past.served ++ (if s.handler = none then q.take 1 else [])
  head : ∀ c, s.device = .working c ∨ s.device = .finished c →
    ∃ b, q.head? = some b ∧ c = command (s.buf b)
  busy : s.handler = none → q ≠ [] → s.device ≠ .ready
  intr : ∀ s', Step s .intr s' → ∃ b q', q = b :: q' ∧ Chain.Path s'.queue none q' ∧
    s'.past.served = s.past.served ++ [b] ∧ (s'.buf b).done ∧
    (s'.buf b).data = s'.disk ((s.buf b).dev % 2) (s.buf b).blockno ∧
    ∀ b', b' ≠ b → s'.buf b' = s.buf b'
  next : ∀ s', Step s .wakeup s' → s'.past.started = s.past.started ++ q.take 1
  spurious : ∀ s', Step s .spurious s' → s' = s
  returns : ∀ e s' p b, Step s e s' → (s.pc p).buffer = some b → s'.pc p = .idle →
    ∃ n, (s.pc p).request = some (b, n) ∧ n < s.past.served.length ∧
      s.past.arrived[n]? = some b ∧ (s'.buf b).valid = true ∧ (s'.buf b).dirty = false

theorem Inv.busy (h : Inv s q) (hn : s.handler = none) (hq : q ≠ []) : s.device ≠ .ready := by
  obtain ⟨a, q, rfl⟩ := exists_cons_of_ne_nil hq
  have hdev := h.device
  simp only [OnHead, if_pos hn] at hdev
  rcases hdev with hd | hd
  · rw [hd]
    exact Device.noConfusion
  · rw [hd]
    exact Device.noConfusion

theorem Inv.head (h : Inv s q) {c : Command} (hc : s.device = .working c ∨ s.device = .finished c) :
    ∃ b, q.head? = some b ∧ c = command (s.buf b) := by
  have hdev := h.device
  have hnot : s.device ≠ .ready := by
    intro hr
    rw [hr] at hc
    rcases hc with hc | hc <;> cases hc
  cases q with
  | nil => exact absurd hdev hnot
  | cons a q =>
    refine ⟨a, rfl, ?_⟩
    simp only [OnHead] at hdev
    split at hdev
    · rcases hc with hc | hc <;> rcases hdev with hd | hd <;> rw [hc] at hd <;> cases hd <;> rfl
    · exact absurd hdev hnot

theorem Inv.intr (h : Inv s q) (hw : Written s) (hs : Step s .intr s') :
    ∃ b q', q = b :: q' ∧ Chain.Path s'.queue none q' ∧
      s'.past.served = s.past.served ++ [b] ∧ (s'.buf b).done ∧
      (s'.buf b).data = s'.disk ((s.buf b).dev % 2) (s.buf b).blockno ∧
      ∀ b', b' ≠ b → s'.buf b' = s.buf b' := by
  cases hs with
  | @intr c b hd hl hb =>
    have hhead := h.path.head
    rw [hb] at hhead
    cases q with
    | nil => cases hhead
    | cons a q =>
      obtain rfl := Option.some.inj hhead
      obtain ⟨a, ha, hcmd⟩ := h.head (.inr hd)
      obtain rfl := Option.some.inj ha
      refine ⟨b, q, rfl, (h.complete hl).path, rfl, ?_, ?_, fun b' hne => ?_⟩
      · simp only [Ide.complete, update_self]
        exact ⟨rfl, rfl⟩
      · simp only [Ide.complete, update_self, input, hd]
        by_cases hdirty : (s.buf b).dirty = true
        · rw [if_pos hdirty]
          refine (hw c (s.buf b).data hd ?_).symm.trans ?_
          · rw [hcmd, command, if_pos hdirty]
          · rw [hcmd]
            rfl
        · rw [if_neg hdirty, hcmd]
          rfl
      · exact update_of_ne hne _ _

theorem Inv.returned (h : Inv s q) (hs : Step s e s')
    (hp : (s.pc p).buffer = some b) (hidle : s'.pc p = .idle) :
    ∃ n, (s.pc p).request = some (b, n) ∧ n < s.past.served.length ∧
      s.past.arrived[n]? = some b ∧ (s'.buf b).valid = true ∧ (s'.buf b).dirty = false := by
  obtain ⟨n, hpc, hd, hbuf⟩ := h.return_cases hs hp hidle
  have hreq : (s.pc p).request = some (b, n) := by
    rw [hpc]
    rfl
  refine ⟨n, hreq, ?_, (h.request p b n hreq).1, ?_⟩
  · by_contra hge
    exact h.pending b (h.mem_iff.mpr ⟨p, n, hreq, by omega⟩) hd
  · rw [hbuf]
    exact hd

/-- In every reachable state the driver serves its requests once, in the order of their arrival. -/
theorem ide_serves (h : Reach Init Step s) : ∃ q, Serves s q := by
  obtain ⟨⟨q, hi⟩, hw⟩ := reach_inv h
  refine ⟨q, ⟨hi.path, hi.nodup, hi.arrived⟩, fun b => hi.mem_iff, hi.started, fun c => hi.head,
    hi.busy, fun s' => hi.intr hw, ?_, ?_, fun e s' p b => hi.returned⟩
  · intro s' hs
    cases hs with
    | wakeup hh _ hok =>
      have hsome : s.handler ≠ none := by
        rw [hh]
        exact Option.some_ne_none _
      obtain ⟨device, started, rfl, hstarted, -⟩ := startNext_ok hi hok hsome
      have hnow := hi.started
      rw [if_neg hsome, append_nil] at hnow
      rw [hnow]
      exact hstarted
  · intro s' hs
    cases hs with
    | spurious => rfl

/-- A driver without requests. Process 7 has locked the first buffer, for block 2, and process 8 the
others, for block 3. -/
def lockedBuffers : Ide where
  buf := fun b =>
    if b.val = 0 then ⟨false, false, 0, 2, 1, some 7, Block.zero⟩
    else ⟨false, false, 0, 3, 1, some 8, Block.zero⟩
  queue := fun _ => none
  device := .ready
  disk := fun _ _ => Block.zero
  havedisk1 := true
  lock := none
  ptable := none
  handler := none
  pc := fun _ => .idle
  past := ⟨[], [], []⟩

/-- Two reads have arrived. The first is served, and the device has the second. -/
theorem ide_serves_two : ∃ s, Reach Init Step s ∧ s.past.arrived = [0, 1] ∧ s.past.served = [0] ∧
    s.past.started = [0, 1] ∧ Serves s [1] := by
  have h0 : Reach Init Step lockedBuffers := .start ⟨rfl, rfl, rfl, rfl, fun _ => rfl, rfl⟩
  have h1 := h0.step (.call (p := 7) (b := 0) rfl rfl)
  have h2 := h1.step (.enqueue (p := 7) rfl rfl rfl)
  have h3 := h2.step (.doze (p := 7) rfl rfl)
  have h4 := h3.step (.call (p := 8) (b := 1) rfl rfl)
  have h5 := h4.step (.enqueue (p := 8) rfl rfl rfl)
  have h6 := h5.step (.sleep (p := 7) rfl)
  have h7 := h6.step (.doze (p := 8) rfl rfl)
  have h8 := h7.step (.sleep (p := 8) rfl)
  have h9 := h8.step (.transfer rfl)
  have h10 := h9.step (.intr (b := 0) rfl rfl rfl)
  have h11 := h10.step (.wakeup rfl rfl rfl)
  obtain ⟨q, hq⟩ := ide_serves h11
  obtain rfl : [1] = q := (cons.inj (show [0, 1] = 0 :: q from hq.queued.2.2)).2
  exact ⟨_, h11, rfl, rfl, rfl, hq⟩

end Ide
end Xv6.Buf
