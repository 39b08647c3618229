import TrieBenchmark.Api
import Mathlib.Data.List.Forall2

/-!
Paths as the harness gives them (`dcache.h`): the parser, names with their hashes, and when two of
them are equal. A string is the list of the bytes before its NUL.
-/

namespace TrieBenchmark

open List

def slash : UInt8 := 47

structure Qstr where
  hash : UInt32
  len : ℕ
  name : List UInt8
  deriving DecidableEq, Repr

def fnvStep (h : UInt32) (c : UInt8) : UInt32 := (h ^^^ c.toUInt32) * 16777619

def fnv1a (name : List UInt8) : UInt32 := name.foldl fnvStep 2166136261

/-- The loop of `dc_qstr_init`, for a `DC_NAME_MAX` of `room + 1`. -/
def qstrLoop (room : ℕ) (h : UInt32) (i : ℕ) : List UInt8 → UInt32 × ℕ
  | [] => (h, i)
  | c :: rest => if i < room then qstrLoop room (fnvStep h c) (i + 1) rest else (h, i)

def qstrInit (room : ℕ) (name : List UInt8) : Qstr :=
  let (h, i) := qstrLoop room 2166136261 0 name
  ⟨h, i, name.take i⟩

def qstrEq (a b : Qstr) : Bool :=
  a.hash = b.hash && a.len = b.len && a.name.take a.len = b.name.take a.len

def pathPush (room : ℕ) (p : List Qstr) (name : List UInt8) : Option (List Qstr) :=
  if pathMax ≤ p.length then none else some (p ++ [qstrInit room name])

def pathParseFrom (room : ℕ) (p : List Qstr) (comp : List UInt8) : List UInt8 → Option (List Qstr)
  | [] => if 0 < comp.length then pathPush room p comp else some p
  | c :: path =>
    if c = slash then
      if 0 < comp.length then (pathPush room p comp).bind fun p => pathParseFrom room p [] path
      else pathParseFrom room p [] path
    else if room ≤ comp.length then none
    else pathParseFrom room p (comp ++ [c]) path

def pathParse (room : ℕ) (path : List UInt8) : Option (List Qstr) :=
  pathParseFrom room [] [] path

def runs (path : List UInt8) : List (List UInt8) :=
  (path.splitOn slash).filter fun r => 0 < r.length

def Qstr.of (name : List UInt8) : Qstr := ⟨fnv1a name, name.length, name⟩

theorem qstrLoop_eq {room : ℕ} {name : List UInt8} {i : ℕ} (h : UInt32)
    (hlen : i + name.length ≤ room) :
    qstrLoop room h i name = (name.foldl fnvStep h, i + name.length) := by
  induction name generalizing h i with
  | nil => rfl
  | cons c rest ih =>
    rw [length_cons] at hlen ⊢
    rw [qstrLoop, if_pos (by omega), ih _ (by omega), foldl_cons]
    congr 1
    omega

theorem qstrInit_eq {room : ℕ} {name : List UInt8} (hlen : name.length ≤ room) :
    qstrInit room name = Qstr.of name := by
  rw [qstrInit, qstrLoop_eq _ (by omega)]
  simp [Qstr.of, fnv1a]

def runsFrom (comp path : List UInt8) : List (List UInt8) :=
  ((path.splitOn slash).modifyHead (comp ++ ·)).filter fun r => 0 < r.length

section RunsFrom

variable {comp path : List UInt8} {c : UInt8}

theorem runsFrom_nil_left : runsFrom [] path = runs path := by
  unfold runsFrom runs
  cases path.splitOn slash <;> rfl

theorem runsFrom_nil : runsFrom comp [] = if 0 < comp.length then [comp] else [] := by
  rw [runsFrom, splitOn_nil, modifyHead_cons, append_nil, filter_singleton]
  simp

theorem runsFrom_slash : runsFrom comp (slash :: path) =
    (if 0 < comp.length then [comp] else []) ++ runs path := by
  rw [runsFrom, runs, splitOn, splitOnP_cons_eq_if_modifyHead, if_pos (by simp),
    modifyHead_cons, append_nil, ← singleton_append, filter_append,
    filter_singleton]
  simp [splitOn]

theorem runsFrom_cons (hc : c ≠ slash) : runsFrom comp (c :: path) = runsFrom (comp ++ [c]) path := by
  rw [runsFrom, runsFrom, splitOn, splitOnP_cons_eq_if_modifyHead, if_neg (by simpa),
    modifyHead_modifyHead]
  simp [splitOn, Function.comp_def]

theorem exists_run (hc : 0 < comp.length) : ∃ r ∈ runsFrom comp path, comp.length ≤ r.length := by
  unfold runsFrom
  cases hs : path.splitOn slash with
  | nil => exact absurd hs (splitOnP_ne_nil _ _)
  | cons r rs =>
    refine ⟨comp ++ r, mem_filter.mpr ⟨mem_cons_self, ?_⟩, ?_⟩
    · simp
      omega
    · simp

end RunsFrom

theorem pathParseFrom_eq {room : ℕ} {comp : List UInt8} {p : List Qstr} (path : List UInt8)
    (hcomp : comp.length ≤ room) (hp : p.length ≤ pathMax) :
    pathParseFrom room p comp path =
      if p.length + (runsFrom comp path).length ≤ pathMax ∧
        ∀ r ∈ runsFrom comp path, r.length ≤ room
      then some (p ++ (runsFrom comp path).map Qstr.of) else none := by
  induction path generalizing comp p with
  | nil =>
    rw [pathParseFrom, runsFrom_nil]
    split_ifs with hpos hfit hfit
    · rw [pathPush, if_neg (Nat.not_le.mpr hfit.1), qstrInit_eq hcomp]
      rfl
    · rw [pathPush, if_pos]
      by_contra hroom
      exact hfit ⟨Nat.not_le.mp hroom, by simpa using hcomp⟩
    · simp
    · exact absurd ⟨by simpa using hp, nofun⟩ hfit
  | cons c path ih =>
    rw [pathParseFrom]
    by_cases hc : c = slash
    · subst hc
      rw [if_pos rfl, runsFrom_slash]
      by_cases hpos : 0 < comp.length
      · rw [if_pos hpos, if_pos hpos, pathPush]
        by_cases hroom : pathMax ≤ p.length
        · rw [if_pos hroom, if_neg]
          · rfl
          · rintro ⟨hle, -⟩
            rw [length_append, length_singleton] at hle
            omega
        · have hfull : (p ++ [qstrInit room comp]).length ≤ pathMax := by
            rw [length_append, length_singleton]
            omega
          rw [if_neg hroom, Option.bind_some, ih (Nat.zero_le _) hfull, runsFrom_nil_left,
            qstrInit_eq hcomp]
          simp [hcomp, Nat.add_assoc, Nat.add_comm]
      · rw [if_neg hpos, if_neg hpos, ih (Nat.zero_le _) hp, runsFrom_nil_left, nil_append]
    · rw [if_neg hc, runsFrom_cons hc]
      by_cases hlong : room ≤ comp.length
      · obtain ⟨r, hr, hlen⟩ := @exists_run (comp ++ [c]) path (by simp)
        rw [if_pos hlong, if_neg]
        rintro ⟨-, hshort⟩
        have hle := hshort r hr
        rw [length_append, length_singleton] at hlen
        omega
      · rw [if_neg hlong]
        apply ih _ hp
        rw [length_append, length_singleton]
        omega

theorem qstrEq_of {a b : List UInt8} : qstrEq (Qstr.of a) (Qstr.of b) = true ↔ a = b := by
  constructor
  · intro h
    simp only [qstrEq, Bool.and_eq_true, decide_eq_true_eq] at h
    obtain ⟨⟨-, hlen : a.length = b.length⟩, hname : a.take a.length = b.take a.length⟩ := h
    rwa [take_length, hlen, take_length] at hname
  · rintro rfl
    simp [qstrEq]

theorem forall₂_qstrEq {as bs : List (List UInt8)} :
    List.Forall₂ (fun a b => qstrEq a b = true) (as.map Qstr.of) (bs.map Qstr.of) ↔ as = bs := by
  rw [forall₂_map_left_iff, forall₂_map_right_iff]
  simp only [qstrEq_of, forall₂_eq_eq_eq]

/-- A path parses iff its runs fit, to the runs with their lengths and hashes, and two that parse
are equal component by component iff their runs are the same. -/
theorem pathParse_runs (room : ℕ) (path : List UInt8) :
    (pathParse room path =
      if (runs path).length ≤ pathMax ∧ ∀ r ∈ runs path, r.length < room + 1
      then some ((runs path).map Qstr.of) else none) ∧
    ∀ path' p p', pathParse room path = some p → pathParse room path' = some p' →
      (List.Forall₂ (fun a b => qstrEq a b = true) p p' ↔ runs path = runs path') := by
  have heq : ∀ path, pathParse room path =
      if (runs path).length ≤ pathMax ∧ ∀ r ∈ runs path, r.length < room + 1
      then some ((runs path).map Qstr.of) else none := by
    intro path
    rw [pathParse, pathParseFrom_eq path (Nat.zero_le _) (Nat.zero_le _), runsFrom_nil_left]
    simp only [length_nil, Nat.zero_add, nil_append, Nat.lt_succ_iff]
  refine ⟨heq path, fun path' p p' hp hp' => ?_⟩
  have hruns : ∀ {path p}, pathParse room path = some p → p = (runs path).map Qstr.of := by
    intro path p h
    rw [heq] at h
    split_ifs at h
    exact (Option.some.inj h).symm
  rw [hruns hp, hruns hp', forall₂_qstrEq]

example : (pathParse 31 [47, 97, 47, 47, 98, 98]).map (·.map Qstr.name) = some [[97], [98, 98]] := by
  decide

end TrieBenchmark
