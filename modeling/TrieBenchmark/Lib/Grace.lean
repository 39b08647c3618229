import Mathlib.Data.List.Basic
import Mathlib.Logic.Function.Basic

/-!
Read-side sections and deferred callbacks. A callback queued while some sections are open may
be invoked only after each of them has been left once.
-/

namespace TrieBenchmark.Grace

open Function

/-- The life of a callback: not queued yet, waiting for the listed sections, invoked. -/
inductive Callback (T : Type) where
  | idle
  | queued (wait : List T)
  | invoked
  deriving DecidableEq, Repr

structure Rcu (T C : Type) where
  readers : List T
  callback : C → Callback T

variable {T C : Type}

def Rcu.init : Rcu T C :=
  ⟨[], fun _ => .idle⟩

def Callback.leave [DecidableEq T] (t : T) : Callback T → Callback T
  | .queued wait => .queued (wait.filter (· ≠ t))
  | cb => cb

namespace Rcu

def lock (r : Rcu T C) (t : T) : Rcu T C :=
  { r with readers := t :: r.readers }

def unlock [DecidableEq T] (r : Rcu T C) (t : T) : Rcu T C :=
  ⟨r.readers.filter (· ≠ t), fun c => (r.callback c).leave t⟩

def call [DecidableEq C] (r : Rcu T C) (c : C) : Rcu T C :=
  { r with callback := update r.callback c (.queued r.readers) }

def ready (r : Rcu T C) (c : C) : Bool :=
  match r.callback c with
  | .queued [] => true
  | _ => false

def invoke [DecidableEq C] (r : Rcu T C) (c : C) : Rcu T C :=
  { r with callback := update r.callback c .invoked }

/-- The open section of `t` still keeps `c` from being invoked. -/
def Holds (r : Rcu T C) (t : T) (c : C) : Prop :=
  r.callback c = .idle ∨ ∃ wait, r.callback c = .queued wait ∧ t ∈ wait

variable {r : Rcu T C} {t u : T} {c c' : C}

@[simp] theorem mem_readers_lock : u ∈ (r.lock t).readers ↔ u = t ∨ u ∈ r.readers := by
  simp [lock]

@[simp] theorem mem_readers_unlock [DecidableEq T] :
    u ∈ (r.unlock t).readers ↔ u ∈ r.readers ∧ u ≠ t := by
  simp [unlock]

@[simp] theorem readers_call [DecidableEq C] : (r.call c).readers = r.readers := rfl

@[simp] theorem readers_invoke [DecidableEq C] : (r.invoke c).readers = r.readers := rfl

@[simp] theorem callback_lock : (r.lock t).callback c = r.callback c := rfl

@[simp] theorem callback_unlock [DecidableEq T] :
    (r.unlock t).callback c = (r.callback c).leave t := rfl

@[simp] theorem leave_eq_idle [DecidableEq T] {cb : Callback T} :
    cb.leave t = .idle ↔ cb = .idle := by
  cases cb <;> simp [Callback.leave]

@[simp] theorem leave_eq_invoked [DecidableEq T] {cb : Callback T} :
    cb.leave t = .invoked ↔ cb = .invoked := by
  cases cb <;> simp [Callback.leave]

theorem callback_call [DecidableEq C] :
    (r.call c').callback c = if c = c' then .queued r.readers else r.callback c := by
  simp [call, update_apply]

theorem callback_invoke [DecidableEq C] :
    (r.invoke c').callback c = if c = c' then .invoked else r.callback c := by
  simp [invoke, update_apply]

theorem ne_idle_of_ready (hr : r.ready c = true) : r.callback c ≠ .idle := by
  intro hc
  simp [ready, hc] at hr

theorem holds_unlock [DecidableEq T] (hc : r.Holds t c) (hne : t ≠ u) : (r.unlock u).Holds t c := by
  rcases hc with hc | ⟨wait, hc, ht⟩
  · exact .inl (by simp [unlock, hc, Callback.leave])
  · exact .inr ⟨wait.filter (· ≠ u), by simp [unlock, hc, Callback.leave], by simp [ht, hne]⟩

theorem holds_call [DecidableEq C] (hc : r.Holds t c) (ht : t ∈ r.readers) :
    (r.call c').Holds t c := by
  rcases eq_or_ne c c' with rfl | hne
  · exact .inr ⟨r.readers, by simp [call], ht⟩
  · simpa [Holds, call, update_of_ne hne] using hc

theorem not_holds_of_ready (hr : r.ready c = true) : ¬ r.Holds t c := by
  rintro (hc | ⟨wait, hc, ht⟩)
  · simp [ready, hc] at hr
  · cases wait with
    | nil => simp at ht
    | cons => simp [ready, hc] at hr

theorem not_holds_of_invoked (hr : r.callback c = .invoked) : ¬ r.Holds t c := by
  simp [Holds, hr]

/-! A program whose operations are sections: what a call and a step do. -/

def atCall [DecidableEq C] (r : Rcu T C) (t : T) (invoked : Option C) (busy : Bool) : Rcu T C :=
  let r := if busy then r.lock t else r
  match invoked with
  | some c => r.invoke c
  | none => r

def atStep [DecidableEq T] [DecidableEq C] (r : Rcu T C) (t : T) (queued : Option C)
    (busy : Bool) : Rcu T C :=
  let r := match queued with
    | some c => r.call c
    | none => r
  if busy then r else r.unlock t

section Program

variable [DecidableEq C] {invoked queued : Option C} {busy : Bool}

theorem mem_readers_atCall : u ∈ (r.atCall t invoked busy).readers ↔
    u ∈ r.readers ∨ u = t ∧ busy = true := by
  cases busy <;> cases invoked <;> simp [atCall, or_comm]

theorem callback_atCall : (r.atCall t invoked busy).callback c =
    if invoked = some c then .invoked else r.callback c := by
  cases busy <;> cases invoked <;> simp [atCall, callback_invoke, eq_comm]

theorem holds_atCall (hc : r.Holds u c) (hr : ∀ c', invoked = some c' → r.ready c' = true) :
    (r.atCall t invoked busy).Holds u c := by
  have hne : invoked ≠ some c := fun he => not_holds_of_ready (hr c he) hc
  simpa [Holds, callback_atCall, hne] using hc

variable [DecidableEq T]

theorem holds_atStep (hu : u ∈ r.readers) (hne : u ≠ t ∨ busy = true) (hc : r.Holds u c) :
    (r.atStep t queued busy).Holds u c := by
  have hcall : (match queued with
      | some k => r.call k
      | none => r).Holds u c := by
    split
    · exact holds_call hc hu
    · exact hc
  unfold atStep
  split_ifs with hb
  · exact hcall
  · exact holds_unlock hcall (hne.resolve_right hb)

theorem mem_readers_atStep (hu : u ∈ r.readers) (hne : u ≠ t ∨ busy = true) :
    u ∈ (r.atStep t queued busy).readers := by
  unfold atStep
  split_ifs with hb
  · split <;> exact hu
  · rw [mem_readers_unlock]
    refine ⟨?_, hne.resolve_right hb⟩
    split <;> exact hu

theorem callback_atStep (hq : queued ≠ some c) :
    ((r.atStep t queued busy).callback c = .idle ↔ r.callback c = .idle) ∧
      ((r.atStep t queued busy).callback c = .invoked ↔ r.callback c = .invoked) := by
  unfold atStep
  cases queued with
  | none => cases busy <;> simp
  | some k =>
    have hne : c ≠ k := fun he => hq (he ▸ rfl)
    cases busy <;> simp [callback_call, hne]

end Program

/-! One thread alone. -/

def Queued (r : Rcu T C) (c : C) : Prop :=
  ∃ wait, r.callback c = .queued wait

structure Only (r : Rcu T C) (t : T) (busy : Bool) : Prop where
  readers : ∀ u ∈ r.readers, u = t ∧ busy = true
  waits : ∀ c wait, r.callback c = .queued wait → ∀ u ∈ wait, u = t ∧ busy = true

theorem Only.init (t : T) : (Rcu.init : Rcu T C).Only t false :=
  ⟨by simp [Rcu.init], by simp [Rcu.init]⟩

theorem Only.ready (hr : r.Only t false) (hq : r.Queued c) : r.ready c = true := by
  obtain ⟨wait, hc⟩ := hq
  have hnil : wait = [] := List.eq_nil_iff_forall_not_mem.mpr fun u hu => by
    cases (hr.waits c wait hc u hu).2
  simp [Rcu.ready, hc, hnil]

theorem Queued.of_ready (hr : r.ready c = true) : r.Queued c := by
  unfold Rcu.ready at hr
  split at hr
  · exact ⟨_, ‹_›⟩
  · cases hr

section Alone

variable [DecidableEq C] {invoked queued : Option C} {busy : Bool}

theorem Only.atCall (hr : r.Only t false) : (r.atCall t invoked busy).Only t busy := by
  refine ⟨fun u hu => ?_, fun c wait hc u hu => ?_⟩
  · rcases mem_readers_atCall.mp hu with hu | hu
    · cases (hr.readers u hu).2
    · exact hu
  · rw [callback_atCall] at hc
    split_ifs at hc
    cases (hr.waits c wait hc u hu).2

theorem queued_atCall : (r.atCall t invoked busy).Queued c ↔ r.Queued c ∧ invoked ≠ some c := by
  unfold Queued
  rw [callback_atCall]
  split_ifs with he <;> simp [he]

variable [DecidableEq T]

omit [DecidableEq C] in
theorem Only.unlock (hr : r.Only t true) : (r.unlock t).Only t false := by
  refine ⟨fun u hu => ?_, fun c wait hc u hu => ?_⟩
  · obtain ⟨hu, hne⟩ := mem_readers_unlock.mp hu
    exact absurd (hr.readers u hu).1 hne
  · rw [callback_unlock] at hc
    cases hcb : r.callback c with
    | queued w =>
      rw [hcb] at hc
      cases hc
      obtain ⟨hu, hne⟩ := List.mem_filter.mp hu
      exact absurd (hr.waits c w hcb u hu).1 (by simpa using hne)
    | _ =>
      rw [hcb] at hc
      cases hc

omit [DecidableEq T] in
theorem Only.call (hr : r.Only t busy) : (r.call c).Only t busy := by
  refine ⟨hr.readers, fun c' wait hc u hu => ?_⟩
  rw [callback_call] at hc
  split_ifs at hc
  · cases hc
    exact hr.readers u hu
  · exact hr.waits c' wait hc u hu

theorem Only.atStep (hr : r.Only t true) : (r.atStep t queued busy).Only t busy := by
  unfold Rcu.atStep
  cases queued <;> cases busy
  · exact hr.unlock
  · exact hr
  · exact hr.call.unlock
  · exact hr.call

omit [DecidableEq C] in
theorem queued_unlock : (r.unlock t).Queued c ↔ r.Queued c := by
  unfold Queued
  rw [callback_unlock]
  cases r.callback c <;> simp [Callback.leave]

omit [DecidableEq T] in
theorem queued_call : (r.call c').Queued c ↔ r.Queued c ∨ c' = c := by
  unfold Queued
  rw [callback_call]
  split_ifs with he
  · simp [he]
  · simp [Ne.symm he]

theorem queued_atStep :
    (r.atStep t queued busy).Queued c ↔ r.Queued c ∨ queued = some c := by
  unfold Rcu.atStep
  cases queued <;> cases busy <;> simp [queued_unlock, queued_call]

end Alone

end Rcu

end TrieBenchmark.Grace
