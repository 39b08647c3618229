import TrieBenchmark.Listing
import TrieBenchmark.Bucketlock.SoloMove

/-!
A lookup that runs alone, and the sequential specification of every operation.
-/

namespace TrieBenchmark.Bucketlock

open List Hlist Namei Serial

variable {Name : Type} [DecidableEq Name] {d d' : DCache Name} {plan : Plan}

section Lookup

variable {h : Hop Name} {xs : List ℕ} {s : Slot ℕ ℕ}

theorem runs_scan_some {top : ℕ} (hseg : Seg d.hash s xs)
    (hf : xs.find? (d.spells h.cur h.name) = some top) :
    Runs plan d (.lkScan h (d.hash.word s).ptr) d (.lkConfirm h top (d.dentry top).neg) := by
  induction xs generalizing s with
  | nil => cases hf
  | cons x _ ih =>
    obtain ⟨hw, -, htail⟩ := hseg
    rw [hw]
    by_cases hx : d.spells h.cur h.name x = true
    · rw [find?_cons_of_pos hx] at hf
      obtain rfl := Option.some.inj hf
      exact .single rfl (by simp [stepPc, hx])
    · rw [find?_cons_of_neg hx] at hf
      have hnext : Runs plan d (.lkScan h (some x)) d (.lkNext h x) :=
        .single rfl (by simp [stepPc, hx])
      have hstep : Runs plan d (.lkNext h x) d (.lkScan h (d.hash.word (.next x)).ptr) :=
        .single rfl rfl
      exact hnext.trans (hstep.trans (ih htail hf))

theorem runs_scan_none (hseg : Seg d.hash s xs) (hend : d.hash.word (endSlot s xs) = ⟨none, false⟩)
    (hf : xs.find? (d.spells h.cur h.name) = none) :
    Runs plan d (.lkScan h (d.hash.word s).ptr) d (.lkUp h.path h.latched h.latched .absent) := by
  induction xs generalizing s with
  | nil =>
    rw [show d.hash.word s = ⟨none, false⟩ from hend]
    exact .single rfl rfl
  | cons x _ ih =>
    obtain ⟨hw, -, htail⟩ := hseg
    rw [find?_cons] at hf
    rw [hw]
    cases hx : d.spells h.cur h.name x with
    | true => simp [hx] at hf
    | false =>
      rw [hx] at hf
      have hnext : Runs plan d (.lkScan h (some x)) d (.lkNext h x) :=
        .single rfl (by simp [stepPc, hx])
      have hstep : Runs plan d (.lkNext h x) d (.lkScan h (d.hash.word (.next x)).ptr) :=
        .single rfl rfl
      exact hnext.trans (hstep.trans (ih htail hend hf))

variable {path : List Name} {latched todo : List (ℕ × ℕ)} {res : DcResult}

theorem HashOk.runs_up (hI : HashOk d) (hl : ∀ p ∈ todo, d.hashed p.1) :
    Runs plan d (.lkUp path latched todo res) d (.done (.lookup res (latched.map Prod.snd))) := by
  induction todo with
  | nil => exact .single rfl rfl
  | cons p todo ih =>
    have hp := hI.not_marked (hl p (by simp))
    have hstep : Runs plan d (.lkUp path latched (p :: todo) res) d
        (.lkUp path latched todo res) := .single rfl (by simp [stepPc, hp])
    exact hstep.trans (ih fun q hq => hl q (by simp [hq]))

def DCache.answer (d : DCache Name) (cur : ℕ) (rest : List Name) (res : DcResult) : DcResult :=
  match rest, Namei.resolve d.childLookup cur rest with
  | [], _ => res
  | _ :: _, none => .absent
  | _ :: _, some h => if (d.dentry h).neg then .negative else .positive

def DCache.through (d : DCache Name) (cur : ℕ) (rest : List Name) : List ℕ :=
  rest.inits.tail.filterMap (Namei.resolve d.childLookup cur)

theorem HashOk.runs_lookup_from (hI : HashOk d) (path : List Name) {cur : ℕ} (rest : List Name)
    (hl : ∀ p ∈ latched, d.hashed p.1) :
    Runs plan d (.lkHop path cur rest latched res) d (.done (.lookup (d.answer cur rest res)
      (latched.map Prod.snd ++ d.through cur rest))) := by
  induction rest generalizing cur latched res with
  | nil =>
    have hstep : Runs plan d (.lkHop path cur [] latched res) d (.lkUp path latched latched res) :=
      .single rfl rfl
    simpa [DCache.answer, DCache.through] using hstep.trans (hI.runs_up hl)
  | cons n rest ih =>
    obtain ⟨hseg, hend⟩ := hI.family.linked (d.bucketOf cur n)
    have hscan : Runs plan d (.lkHop path cur (n :: rest) latched res) d
        (.lkScan ⟨path, cur, n, rest, latched⟩
          (d.hash.word (.first (d.bucketOf cur n))).ptr) := .single rfl rfl
    cases hf : d.findTop cur n with
    | none =>
      have hnone : d.childLookup cur n = none := by simp [DCache.childLookup, hf]
      have hmiss := hscan.trans (runs_scan_none hseg hend hf)
      rw [show d.through cur (n :: rest) = [] from through_cons_none rest hnone, append_nil]
      have habs : d.answer cur (n :: rest) res = .absent := by
        simp [DCache.answer, Namei.resolve, hnone]
      rw [habs]
      exact hmiss.trans (hI.runs_up hl)
    | some top =>
      have hsome : d.childLookup cur n = some (d.hostOf top) := by
        simp [DCache.childLookup, hf]
      obtain ⟨hh, -, -⟩ := hI.findTop_eq_some.mp hf
      have hlive := hI.not_marked hh
      have hstate : (if (d.dentry top).shell then (d.dentry (d.hostOf top)).neg
          else (d.dentry top).neg) = (d.dentry (d.hostOf top)).neg := by
        cases hs : (d.dentry top).shell with
        | true => rfl
        | false => rw [DCache.hostOf_of_host hs, if_neg (by simp)]
      have hconfirm : Runs plan d
          (.lkConfirm ⟨path, cur, n, rest, latched⟩ top (d.dentry top).neg) d
          (.lkState ⟨path, cur, n, rest, latched⟩ top (d.dentry top).neg) :=
        .single rfl (by simp [stepPc, hlive])
      have hhop : Runs plan d
          (.lkState ⟨path, cur, n, rest, latched⟩ top (d.dentry top).neg) d
          (.lkHop path (d.hostOf top) rest (latched ++ [(top, d.hostOf top)])
            (if (d.dentry (d.hostOf top)).neg then .negative else .positive)) :=
        .single rfl (by simp only [stepPc, hstate])
      have hlatch : ∀ p ∈ latched ++ [(top, d.hostOf top)], d.hashed p.1 := by
        intro p hp
        rcases mem_append.mp hp with hp | hp
        · exact hl p hp
        · rw [mem_singleton.mp hp]
          exact hh
      have hfound : Runs plan d (.lkScan ⟨path, cur, n, rest, latched⟩
          (d.hash.word (.first (d.bucketOf cur n))).ptr) d
          (.lkConfirm ⟨path, cur, n, rest, latched⟩ top (d.dentry top).neg) :=
        runs_scan_some hseg hf
      have hrest := hhop.trans (ih hlatch)
      rw [show d.answer cur (n :: rest) res = d.answer (d.hostOf top) rest _ from
          answer_cons_some rest res hsome,
        show d.through cur (n :: rest) = d.hostOf top :: d.through (d.hostOf top) rest from
          through_cons_some rest hsome]
      rw [map_append, append_assoc] at hrest
      exact hscan.trans (hfound.trans (hconfirm.trans hrest))

theorem Quiet.lookup (hQ : Quiet d) (path : List Name) :
    ∃ d', Served plan d (opStart (.lookup path)) (.lookup (d.names.lookup path).1
      (d.names.lookup path).2) d.names 0 d' := by
  refine ⟨d, .unchanged hQ ?_⟩
  have hrun : Runs plan d (.lkHop path root path [] .positive) d (.done (.lookup
      (d.answer root path .positive) (map Prod.snd [] ++ d.through root path))) :=
    hQ.hash.runs_lookup_from path path (by simp)
  have hlook : d.names.lookup path = (d.answer root path .positive, d.through root path) :=
    pathMap_lookup path (fun _ => rfl) fun _ => rfl
  rw [hlook]
  exact hrun

end Lookup

/-- A rename whose destination is not an unsettled negative file; any other operation. -/
def DCache.settledFor (d : DCache Name) : Op Name → Bool
  | .rename _ dst => !d.destUnsettled dst
  | _ => true

theorem Quiet.serve (hQ : Quiet d) {o : Op Name} (hfit : o.Fits) (hset : d.settledFor o = true) :
    ∃ d', Served plan d (opStart o) (serve d.fresh plan d.names o).1
      (serve d.fresh plan d.names o).2 (spent d.fresh plan d.names o) d' := by
  have hmax : ∀ p ∈ o.paths, p.length ≤ loopMax := fun p hp => (hfit p hp).trans (by decide)
  cases o with
  | addTyped path id isdir positive =>
    obtain ⟨d', hd'⟩ : ∃ d', Served plan d (opStart (.addTyped path id isdir positive)) (.code _)
        _ _ d' := hQ.addTyped path id isdir positive
    refine ⟨d', hd'.runs, hd'.names, hd'.flags, hd'.fresh.trans ?_⟩
    simp only [spent]
  | instantiate path id => exact hQ.instantiate path id
  | delete path => exact hQ.delete path
  | unlink path => exact hQ.unlink path
  | rename src dst =>
    obtain ⟨d', hd'⟩ : ∃ d', Served plan d (opStart (.rename src dst)) (.code _) _ _ d' :=
      hQ.rename (hmax dst (by simp [Op.paths])) (by simpa [DCache.settledFor] using hset)
    refine ⟨d', hd'.runs, hd'.names, hd'.flags, hd'.fresh.trans ?_⟩
    simp only [spent]
  | exchange a b =>
    obtain ⟨d', hd'⟩ : ∃ d', Served plan d (opStart (.exchange a b)) (.code _) _ _ d' :=
      hQ.exchange (hmax a (by simp [Op.paths])) (hmax b (by simp [Op.paths]))
    refine ⟨d', hd'.runs, hd'.names, hd'.flags, hd'.fresh.trans ?_⟩
    simp only [spent]
    congr
  | lookup path => exact hQ.lookup path

/-! Listing a directory and the whole tree. -/

def DCache.tree (d : DCache Name) : Serial.Tree Name where
  child := d.childLookup
  kids h := (d.childChain h).map fun top => (d.hostOf top, (d.dentry top).iname)
  parent h := (d.dentry h).parent
  obj := d.obj

def DCache.dcReaddir (d : DCache Name) (path : List Name) : Option (List (ℕ × Name)) :=
  d.tree.readdir root path

def DCache.dcWalk (d : DCache Name) : List (ℕ × List Name) :=
  d.tree.walk root

theorem SibOk.listed (hS : SibOk d) (hI : HashOk d) : d.tree.Listed := by
  intro h c n
  rw [show d.tree.child h n = d.childLookup h n from rfl, hI.childLookup_eq_some]
  simp only [DCache.tree, mem_map, hS.mem, Prod.mk.injEq]
  constructor
  · rintro ⟨top, ⟨hh, hp⟩, hc, hn⟩
    exact ⟨top, hh, hp, hn, hc⟩
  · rintro ⟨top, hh, hp, hn, hc⟩
    exact ⟨top, ⟨hh, hp⟩, hc, hn⟩

end TrieBenchmark.Bucketlock
