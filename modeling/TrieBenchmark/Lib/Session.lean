import Mathlib.Data.List.Basic
import Mathlib.Order.Lattice

/-!
One client that makes its calls one after the other, and runs the work each call deferred before
it makes the next.
-/

namespace TrieBenchmark.Session

open Option

/-- A machine as its client drives it. `step` is `none` once the call has returned, `due` is the
deferred work that may be invoked. -/
structure Driver (S O R : Type) where
  start : O → S → Option S
  step : S → Option S
  reply : S → Option R
  due : S → List ℕ
  invoke : ℕ → S → Option S

variable {S O R V : Type}

namespace Driver

variable (D : Driver S O R)

def finish : ℕ → S → Option S
  | 0, _ => none
  | fuel + 1, s =>
    match D.step s with
    | some s' => finish fuel s'
    | none => some s

def drain (fuel : ℕ) : List ℕ → S → Option S
  | [], s => some s
  | n :: ns, s => (D.invoke n s).bind fun s₁ => (D.finish fuel s₁).bind (drain fuel ns)

def serve (fuel : ℕ) (s : S) (o : O) : Option (R × S) :=
  (D.start o s).bind fun s₁ => (D.finish fuel s₁).bind fun s₂ => (D.reply s₂).bind fun r =>
    (D.drain fuel (D.due s₂) s₂).map fun s₃ => (r, s₃)

def session (fuel : ℕ) : S → List O → Option (List R × S)
  | s, [] => some ([], s)
  | s, o :: os => (D.serve fuel s o).bind fun p =>
    (session fuel p.2 os).map fun q => (p.1 :: q.1, q.2)

variable {D} {s s' s₁ s₂ s₃ : S} {o : O} {r : R} {fuel fuel' : ℕ}

theorem finish_mono (hf : D.finish fuel s = some s') (hle : fuel ≤ fuel') :
    D.finish fuel' s = some s' := by
  induction fuel generalizing s fuel' with
  | zero => cases hf
  | succ _ ih =>
    cases fuel' with
    | zero => omega
    | succ =>
      unfold finish at hf ⊢
      split at hf
      · exact ih hf (by omega)
      · exact hf

theorem drain_mono {ns : List ℕ} (hd : D.drain fuel ns s = some s') (hle : fuel ≤ fuel') :
    D.drain fuel' ns s = some s' := by
  induction ns generalizing s with
  | nil => exact hd
  | cons _ _ ih =>
    obtain ⟨s₁, hi, hd⟩ := bind_eq_some_iff.mp hd
    obtain ⟨s₂, hf, hd⟩ := bind_eq_some_iff.mp hd
    exact bind_eq_some_iff.mpr ⟨s₁, hi,
      bind_eq_some_iff.mpr ⟨s₂, finish_mono hf hle, ih hd⟩⟩

theorem serve_eq (hstart : D.start o s = some s₁) (hf : D.finish fuel s₁ = some s₂)
    (hr : D.reply s₂ = some r) (hd : D.drain fuel (D.due s₂) s₂ = some s₃) :
    D.serve fuel s o = some (r, s₃) := by
  simp [serve, hstart, hf, hr, hd]

theorem serve_mono {p : R × S} (hs : D.serve fuel s o = some p) (hle : fuel ≤ fuel') :
    D.serve fuel' s o = some p := by
  obtain ⟨s₁, hstart, hs⟩ := bind_eq_some_iff.mp hs
  obtain ⟨s₂, hf, hs⟩ := bind_eq_some_iff.mp hs
  obtain ⟨r, hr, hs⟩ := bind_eq_some_iff.mp hs
  obtain ⟨s₃, hd, rfl⟩ := map_eq_some_iff.mp hs
  exact serve_eq hstart (finish_mono hf hle) hr (drain_mono hd hle)

theorem serve_unique {p p' : R × S} (h : D.serve fuel s o = some p)
    (h' : D.serve fuel' s o = some p') : p = p' := by
  have hm := serve_mono h (le_max_left fuel fuel')
  rw [serve_mono h' (le_max_right fuel fuel')] at hm
  exact (some.inj hm).symm

theorem session_mono {os : List O} {q : List R × S} (hs : D.session fuel s os = some q)
    (hle : fuel ≤ fuel') : D.session fuel' s os = some q := by
  induction os generalizing s q with
  | nil => exact hs
  | cons _ _ ih =>
    obtain ⟨p, hp, hs⟩ := bind_eq_some_iff.mp hs
    obtain ⟨q', hq', rfl⟩ := map_eq_some_iff.mp hs
    unfold session
    rw [serve_mono hp hle, bind_some, ih hq', map_some]

theorem exists_drain {P : List ℕ → S → Prop}
    (hstep : ∀ n ns s, P (n :: ns) s → ∃ s₁, D.invoke n s = some s₁ ∧
      ∃ fuel s₂, D.finish fuel s₁ = some s₂ ∧ P ns s₂) {ns : List ℕ} (hs : P ns s) :
    ∃ fuel s', D.drain fuel ns s = some s' ∧ P [] s' := by
  induction ns generalizing s with
  | nil => exact ⟨0, s, rfl, hs⟩
  | cons n ns ih =>
    obtain ⟨s₁, hi, fuel₁, s₂, hf, hs₂⟩ := hstep n ns s hs
    obtain ⟨fuel₂, s₃, hd, hs₃⟩ := ih hs₂
    refine ⟨max fuel₁ fuel₂, s₃, ?_, hs₃⟩
    rw [drain, hi, bind_some, finish_mono hf (le_max_left ..), bind_some]
    exact drain_mono hd (le_max_right ..)

end Driver

def Driver.pair {S' : Type} (D : Driver S O R) (D' : Driver S' O R) (x : S × S') (c : ℕ × O) :
    Option (S × S') :=
  (D.serve c.1 x.1 c.2).bind fun p => (D'.serve c.1 x.2 c.2).map fun p' => (p.2, p'.2)

theorem Driver.pair_eq_some {S' : Type} {D : Driver S O R} {D' : Driver S' O R} {x y : S × S'}
    {c : ℕ × O} (h : D.pair D' x c = some y) : ∃ r r',
      D.serve c.1 x.1 c.2 = some (r, y.1) ∧ D'.serve c.1 x.2 c.2 = some (r', y.2) := by
  obtain ⟨p, hp, h⟩ := bind_eq_some_iff.mp h
  obtain ⟨p', hp', rfl⟩ := map_eq_some_iff.mp h
  exact ⟨p.1, p'.1, hp, hp'⟩

def answers (spec : V → O → R × V) : V → List O → List R × V
  | v, [] => ([], v)
  | v, o :: os => ((spec v o).1 :: (answers spec (spec v o).2 os).1,
      (answers spec (spec v o).2 os).2)

/-- From related states every call that `ok` admits returns what the specification says, and
leaves related states. -/
def Refines (D : Driver S O R) (rel : S → V → Prop) (ok : O → Prop) (spec : V → O → R × V) :
    Prop :=
  ∀ s v o, rel s v → ok o →
    ∃ fuel s', D.serve fuel s o = some ((spec v o).1, s') ∧ rel s' (spec v o).2

theorem Refines.session {D : Driver S O R} {rel : S → V → Prop} {ok : O → Prop}
    {spec : V → O → R × V} (hD : Refines D rel ok spec) {s : S} {v : V} (hs : rel s v)
    {os : List O} (hok : ∀ o ∈ os, ok o) :
    ∃ fuel s', D.session fuel s os = some ((answers spec v os).1, s') ∧
      rel s' (answers spec v os).2 := by
  induction os generalizing s v with
  | nil => exact ⟨0, s, rfl, hs⟩
  | cons o _ ih =>
    obtain ⟨fuel₁, s₁, hserve, hs₁⟩ := hD s v o hs (hok o (by simp))
    obtain ⟨fuel₂, s₂, hrest, hs₂⟩ := ih hs₁ fun o ho => hok o (by simp [ho])
    refine ⟨max fuel₁ fuel₂, s₂, ?_, hs₂⟩
    rw [Driver.session, Driver.serve_mono hserve (le_max_left ..), bind_some,
      Driver.session_mono hrest (le_max_right ..)]
    rfl

theorem answers_snd_congr {spec spec' : V → O → R × V} {ok : O → Prop}
    (he : ∀ v o, ok o → (spec v o).2 = (spec' v o).2) {v : V} {os : List O}
    (hok : ∀ o ∈ os, ok o) : (answers spec v os).2 = (answers spec' v os).2 := by
  induction os generalizing v with
  | nil => rfl
  | cons o _ ih =>
    unfold answers
    rw [he v o (hok o (by simp))]
    exact ih fun o ho => hok o (by simp [ho])

end TrieBenchmark.Session
