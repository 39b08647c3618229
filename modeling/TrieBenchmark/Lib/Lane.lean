import Mathlib.Data.List.Basic

/-!
Transaction handles that may escalate into a lane of their domain, and the loops that retry one
transaction with one handle. `begin` takes the lane when it decides to. A handle whose next
attempt is pending keeps the lane over its `end`, so a loop that stops between two attempts
still holds it.
-/

namespace TrieBenchmark.Lane

inductive Status where
  | ok
  | abort
  | error
  deriving DecidableEq, Repr

/-- `inFallback`: the handle holds the lane. `pending`: the attempt under way is to be made
again. -/
structure Handle where
  inFallback : Bool
  pending : Bool
  deriving DecidableEq, Repr

namespace Handle

def init : Handle := ⟨false, false⟩

def txnBegin (wants : Bool) (h : Handle) : Handle := ⟨h.inFallback || wants, false⟩

def txnConflict (h : Handle) : Handle := { h with pending := true }

def txnAbandon (h : Handle) : Handle := { h with pending := false }

def txnCommit (st : Status) (h : Handle) : Handle :=
  { h with pending := h.pending || st = .abort }

def txnEnd (h : Handle) : Handle := ⟨h.inFallback && h.pending, false⟩

def bail (h : Handle) : Handle := h.txnAbandon.txnEnd

def again (h : Handle) : Handle := h.txnConflict.txnEnd

def close (st : Status) (h : Handle) : Handle := (h.txnCommit st).txnEnd

theorem bail_inFallback (h : Handle) : h.bail.inFallback = false := by
  simp [bail, txnAbandon, txnEnd]

theorem close_inFallback {st : Status} (hst : st ≠ .abort) (wants : Bool) (h : Handle) :
    ((h.txnBegin wants).close st).inFallback = false := by
  simp [close, txnBegin, txnCommit, txnEnd, hst]

end Handle

def verdict {E : Type} (st : Status) (e : E) : Option (Option E) :=
  match st with
  | .ok => some none
  | .abort => none
  | .error => some (some e)

theorem ne_abort_of_verdict {E : Type} {st : Status} {e : E} {r : Option E}
    (h : verdict st e = some r) : st ≠ .abort := by
  intro hst
  subst hst
  exact absurd h nofun

section Retry

variable {O σ R : Type} {P : σ → Prop}

def retry (attempt : O → σ → σ × Option R) : List O → σ → Option (σ × R)
  | [], _ => none
  | o :: os, s =>
    match attempt o s with
    | (s', none) => retry attempt os s'
    | (s', some r) => some (s', r)

def Returns (P : σ → Prop) (x : σ × Option R) : Prop := ∀ r, x.2 = some r → P x.1

theorem Returns.next (s : σ) : Returns P (s, (none : Option R)) :=
  fun _ h => absurd h nofun

theorem Returns.last {s : σ} (h : P s) (r : Option R) : Returns P (s, r) :=
  fun _ _ => h

variable {attempt : O → σ → σ × Option R} {ok : O → σ → Prop} {os : List O} {s s' : σ} {r : R}

/-- Every attempt that the loop makes finds `ok`. -/
def Along (ok : O → σ → Prop) (attempt : O → σ → σ × Option R) : List O → σ → Prop
  | [], _ => True
  | o :: os, s => ok o s ∧ ((attempt o s).2 = none → Along ok attempt os (attempt o s).1)

theorem along_of_forall (h : ∀ o s, ok o s) : Along ok attempt os s := by
  induction os generalizing s with
  | nil => trivial
  | cons o _ ih => exact ⟨h o s, fun _ => ih⟩

theorem retry_returns (hP : ∀ o s, ok o s → Returns P (attempt o s))
    (hok : Along ok attempt os s) (h : retry attempt os s = some (s', r)) : P s' := by
  induction os generalizing s with
  | nil => exact absurd h nofun
  | cons o _ ih =>
    obtain ⟨ho, hrest⟩ := hok
    have hret := hP o s ho
    rw [retry] at h
    cases hx : attempt o s with
    | mk s₁ next =>
      rw [hx] at h hret hrest
      cases next with
      | none => exact ih (hrest rfl) h
      | some r₁ =>
        obtain ⟨rfl, -⟩ : s₁ = s' ∧ r₁ = r := by simpa using h
        exact hret r₁ rfl

end Retry

/-! Loops whose state has a handle in it. -/

section Handles

variable {O σ R E : Type} {lane : σ → Handle} {s : σ} {h : Handle}

abbrev Frees (lane : σ → Handle) (x : σ × Option R) : Prop :=
  Returns (fun s => (lane s).inFallback = false) x

theorem frees_bail (hs : lane s = h.bail) (r : Option R) : Frees lane (s, r) :=
  Returns.last (hs ▸ h.bail_inFallback) r

theorem frees_close {st : Status} {wants : Bool} (hs : lane s = (h.txnBegin wants).close st)
    (e : E) : Frees lane (s, verdict st e) := by
  intro r hr
  exact hs ▸ Handle.close_inFallback (ne_abort_of_verdict hr) wants h

def Leaves (lane : σ → Handle) (run : Option (σ × R)) : Prop :=
  ∀ x, run = some x → (lane x.1).inFallback = false

theorem leaves_early (hs : lane s = .init) (r : R) : Leaves lane (some (s, r)) := by
  rintro x ⟨⟩
  exact hs ▸ rfl

theorem leaves_retry {attempt : O → σ → σ × Option R} {ok : O → σ → Prop} {os : List O}
    (hf : ∀ o s, ok o s → Frees lane (attempt o s)) (hok : Along ok attempt os s) :
    Leaves lane (retry attempt os s) :=
  fun _ hx => retry_returns (P := fun s => (lane s).inFallback = false) hf hok hx

end Handles

end TrieBenchmark.Lane
