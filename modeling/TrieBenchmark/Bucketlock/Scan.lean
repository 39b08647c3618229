import TrieBenchmark.Bucketlock.Account

/-!
`dc_scan` on its seq and mark arms, with nothing else running: a pass over the child lists gives up
at a depth, and a pass that has given up is made again.
-/

namespace TrieBenchmark.Serial

open Namei

variable {Name : Type}

def scanDepthMax : ℕ := 4 * pathMax

inductive ScanErr where
  | ENOENT
  | ENOSPC
  | EAGAIN
  deriving DecidableEq, Repr

inductive ScanArm where
  | seq
  | mark
  deriving DecidableEq, Repr

structure Watch where
  seq : ℕ
  done : ℕ

/-- A move signals before its commit and after it, on the mark arm only if it finds a mark. -/
def Watch.move (arm : ScanArm) (w : Watch) (marked : Bool) : Watch :=
  match arm with
  | .seq => ⟨w.seq + 1, w.done + 1⟩
  | .mark => if marked then { w with seq := w.seq + 1 } else w

theorem Watch.settled {arm : ScanArm} (moves : List Bool) (harm : arm = .seq) :
    (moves.foldl (Watch.move arm) ⟨0, 0⟩).seq = (moves.foldl (Watch.move arm) ⟨0, 0⟩).done := by
  subst harm
  have h : ∀ w : Watch, w.seq = w.done →
      (moves.foldl (Watch.move .seq) w).seq = (moves.foldl (Watch.move .seq) w).done := by
    induction moves with
    | nil => exact fun _ hw => hw
    | cons _ _ ih => exact fun w hw => ih _ (congrArg (· + 1) hw)
  exact h _ rfl

namespace Tree

variable {T : Tree Name} {cap room dir : ℕ} {ids : List ℕ} {path : List Name}

/-- One child of a pass: it is reported if it is positive, and read in turn if it is a directory. -/
def scanChild (T : Tree Name) (cap : ℕ) (down : ℕ → List ℕ → Except ScanErr (List ℕ))
    (ids : List ℕ) (c : ℕ × Name) : Except ScanErr (List ℕ) := do
  let ids ←
    if (T.obj c.1).neg then pure ids
    else if ids.length = cap then throw .ENOSPC
    else pure (ids ++ [(T.obj c.1).id])
  if (T.obj c.1).isdir then down c.1 ids else pure ids

/-- `scan_rec`: at `room` 0 the depth is past the cap. `n` is the length of `ids`. -/
def scanRec (T : Tree Name) (cap : ℕ) : ℕ → ℕ → List ℕ → Except ScanErr (List ℕ)
  | 0, _, _ => .error .EAGAIN
  | room + 1, dir, ids => (T.kids dir).foldlM (T.scanChild cap (T.scanRec cap room)) ids

/-- `dc_scan`, of which so many passes are made at most. Nobody writes the words meanwhile: the
pass finds `scan_seq` as it was. -/
def dcScan (T : Tree Name) (arm : ScanArm) (w : Watch) (r cap : ℕ) (path : List Name) :
    ℕ → Option (Except ScanErr (List ℕ))
  | 0 => none
  | passes + 1 =>
    -- a move is in its commit
    if arm = .seq ∧ w.seq ≠ w.done then none
    else match resolve T.child r path with
      | none => some (.error .ENOENT)
      | some dir =>
        match if (T.obj dir).isdir then T.scanRec cap (scanDepthMax + 1) dir [] else .ok [] with
        | .error .EAGAIN => T.dcScan arm w r cap path passes
        | res => some res

def below (T : Tree Name) (room dir : ℕ) (path : List Name) : List (ℕ × List Name) :=
  (T.kids dir).flatMap fun c => T.walkRec room c.1 (path ++ [c.2])

theorem scanChild_eq (path : List Name) {down : ℕ → List ℕ → Except ScanErr (List ℕ)} {c : ℕ × Name}
    (hcap : ids.length + (T.visit c.1 (path ++ [c.2])).length ≤ cap) :
    T.scanChild cap down ids c =
      if (T.obj c.1).isdir then down c.1 (ids ++ (T.visit c.1 (path ++ [c.2])).map Prod.fst)
      else .ok (ids ++ (T.visit c.1 (path ++ [c.2])).map Prod.fst) := by
  unfold scanChild visit at *
  cases hneg : (T.obj c.1).neg with
  | true => simp [pure, Except.pure, bind, Except.bind]
  | false =>
    have hroom : ids.length ≠ cap := by
      simp [hneg] at hcap
      omega
    simp [hroom, pure, Except.pure, bind, Except.bind]

theorem foldlM_append {α : Type} (cap : ℕ) {f : List ℕ → α → Except ScanErr (List ℕ)} {g : α → List ℕ}
    {l : List α} (hf : ∀ c ∈ l, ∀ ids : List ℕ, ids.length + (g c).length ≤ cap →
      f ids c = .ok (ids ++ g c)) (hcap : ids.length + (l.flatMap g).length ≤ cap) :
    l.foldlM f ids = .ok (ids ++ l.flatMap g) := by
  induction l generalizing ids with
  | nil => simp [pure, Except.pure]
  | cons c l ih =>
    simp only [List.flatMap_cons, List.length_append] at hcap
    rw [List.foldlM_cons, hf c (List.mem_cons_self ..) ids (by omega)]
    show l.foldlM f (ids ++ g c) = _
    rw [ih (fun c' hc' => hf c' (List.mem_cons_of_mem _ hc')) (by rw [List.length_append]; omega)]
    simp

theorem Listed.scanRec_eq (hT : T.Listed)
    (hfile : ∀ q h, resolve T.child dir q = some h → T.kids h ≠ [] → (T.obj h).isdir = true)
    (hdeep : ∀ q h, resolve T.child dir q = some h → (T.obj h).isdir = true → q.length ≤ room)
    (hcap : ids.length + (T.below room dir path).length ≤ cap) :
    T.scanRec cap (room + 1) dir ids = .ok (ids ++ (T.below room dir path).map Prod.fst) := by
  induction room generalizing dir ids path with
  | zero =>
    rw [below, List.map_flatMap]
    apply foldlM_append cap _ (by simpa [below, List.map_flatMap] using hcap)
    intro c hc ids hids
    have hc := (hT dir c.1 c.2).mp hc
    rw [scanChild_eq path (by simpa [walkRec] using hids), if_neg fun hd => ?_]
    · rfl
    · exact absurd (hdeep [c.2] c.1 (by simp [resolve, hc]) hd) (by simp)
  | succ room ih =>
    rw [below, List.map_flatMap]
    apply foldlM_append cap _ (by simpa [below, List.map_flatMap] using hcap)
    intro c hc ids hids
    have hc := (hT dir c.1 c.2).mp hc
    have hsub : ∀ q h, resolve T.child c.1 q = some h → resolve T.child dir (c.2 :: q) = some h :=
      fun q h hq => by simp [resolve, hc, hq]
    have hwalk : T.walkRec (room + 1) c.1 (path ++ [c.2]) =
        T.visit c.1 (path ++ [c.2]) ++ T.below room c.1 (path ++ [c.2]) := rfl
    rw [hwalk, List.map_append, List.length_append, List.length_map, List.length_map] at hids
    rw [scanChild_eq path (by omega), hwalk, List.map_append, ← List.append_assoc]
    split_ifs with hd
    · apply ih
      · exact fun q h hq => hfile _ h (hsub q h hq)
      · exact fun q h hq hd => Nat.le_of_succ_le_succ (hdeep _ h (hsub q h hq) hd)
      · simp only [List.length_append, List.length_map]
        omega
    · have hleaf : T.kids c.1 = [] := by
        by_contra hk
        exact hd (hfile [c.2] c.1 (hsub [] c.1 rfl) hk)
      simp [below, hleaf]

theorem Listed.dcScan_eq (hT : T.Listed) (hnd : ∀ h, (T.kids h).Nodup) {r : ℕ}
    (hR : Rooted T.child r) (hdir : resolve T.child r path = some dir)
    (hfile : ∀ q h, resolve T.child r (path ++ q) = some h →
      (∃ n, (resolve T.child r (path ++ q ++ [n])).isSome = true) → (T.obj h).isdir = true)
    (hdeep : ∀ q h, resolve T.child r (path ++ q) = some h → (T.obj h).isdir = true →
      q.length ≤ scanDepthMax) : ∃ hosts : List ℕ, hosts.Nodup ∧
      (∀ h, h ∈ hosts ↔ ∃ q, q ≠ [] ∧ resolve T.child r (path ++ q) = some h ∧
        (T.obj h).neg = false) ∧
      ∀ arm w cap, (arm = .seq → w.seq = w.done) → hosts.length ≤ cap →
        T.dcScan arm w r cap path 1 = some (.ok (hosts.map fun h => (T.obj h).id)) := by
  have hsub : ∀ q, resolve T.child r (path ++ q) = resolve T.child dir q := by
    intro q
    rw [resolve_append, hdir, Option.bind_some]
  have hkids : ∀ q h, resolve T.child dir q = some h → T.kids h ≠ [] → (T.obj h).isdir = true := by
    intro q h hq hk
    obtain ⟨c, hc⟩ := List.exists_mem_of_ne_nil _ hk
    refine hfile q h ((hsub q).trans hq) ⟨c.2, ?_⟩
    rw [List.append_assoc, hsub, resolve_concat, hq, Option.bind_some, (hT h c.1 c.2).mp hc]
    rfl
  -- the visits of a walk below the directory, with their hosts
  set V := (T.kids dir).flatMap fun c => T.visits scanDepthMax c.1 [c.2] with hV
  have hvisits : T.visits (scanDepthMax + 1) dir [] = (T.visit dir []).map (dir, ·) ++ V := rfl
  have hmem : ∀ v ∈ V, resolve T.child dir v.2.2 = some v.1 ∧ v.2.2 ≠ [] ∧
      (T.obj v.1).neg = false ∧ (T.obj v.1).id = v.2.1 := by
    rintro ⟨h, i, p⟩ hv
    obtain ⟨c, hc, hv⟩ := List.mem_flatMap.mp hv
    obtain ⟨q, rfl, hq, hvisit⟩ := hT.of_mem_visits hv
    obtain ⟨-, -, hneg, hid⟩ := mem_visit.mp hvisit
    exact ⟨by simp [resolve, (hT dir c.1 c.2).mp hc, hq], by simp, hneg, hid⟩
  have hpaths : (V.map fun v => v.2.2).Nodup := by
    have h := hT.visits_nodup hnd (scanDepthMax + 1) dir []
    rw [hvisits, List.map_append] at h
    exact h.of_append_right
  have hbelow : T.below scanDepthMax dir [] = V.map Prod.snd := by
    rw [below, hV, List.map_flatMap]
    congr 1
    funext c
    rw [walkRec_eq]
    rfl
  have hids : (T.below scanDepthMax dir []).map Prod.fst =
      (V.map Prod.fst).map fun h => (T.obj h).id := by
    rw [hbelow, List.map_map, List.map_map]
    exact List.map_congr_left fun v hv => (hmem v hv).2.2.2.symm
  refine ⟨V.map Prod.fst, hpaths.of_map.map_on ?_, fun h => ⟨fun hh => ?_, ?_⟩, ?_⟩
  · intro v hv v' hv' he
    have hp : path ++ v.2.2 = path ++ v'.2.2 :=
      hR.resolve_inj ((hsub _).trans (hmem v hv).1) ((hsub _).trans (he ▸ (hmem v' hv').1))
    refine Prod.ext he (Prod.ext ?_ (List.append_cancel_left hp))
    rw [← (hmem v hv).2.2.2, ← (hmem v' hv').2.2.2, he]
  · obtain ⟨v, hv, rfl⟩ := List.mem_map.mp hh
    exact ⟨v.2.2, (hmem v hv).2.1, (hsub _).trans (hmem v hv).1, (hmem v hv).2.2.1⟩
  · rintro ⟨q, hne, hq, hneg⟩
    have hlen : q.length ≤ scanDepthMax + 1 := by
      obtain ⟨q', n, rfl⟩ := (List.eq_nil_or_concat' q).resolve_left hne
      have hq' := hq
      rw [← List.append_assoc, resolve_concat] at hq'
      obtain ⟨h', hh', -⟩ := Option.bind_eq_some_iff.mp hq'
      have hd := hfile q' h' hh' ⟨n, by rw [List.append_assoc, hq]; rfl⟩
      simpa using hdeep q' h' hh' hd
    have hw : ((T.obj h).id, q) ∈ T.walkRec (scanDepthMax + 1) dir [] :=
      hT.mem_walkRec.mpr ⟨q, h, rfl, hlen, (hsub q).symm.trans hq,
        mem_visit.mpr ⟨rfl, .inl hne, hneg, rfl⟩⟩
    rw [walkRec_eq, hvisits, List.map_append] at hw
    rcases List.mem_append.mp hw with hw | hw
    · obtain ⟨v, hv, he⟩ := List.mem_map.mp hw
      obtain ⟨e, hev, rfl⟩ := List.mem_map.mp hv
      obtain rfl : e = ((T.obj h).id, q) := he
      exact absurd (mem_visit.mp hev).1 hne
    · obtain ⟨v, hv, he⟩ := List.mem_map.mp hw
      refine List.mem_map.mpr ⟨v, hv, Option.some.inj ?_⟩
      rw [← (hmem v hv).1, he, ← hsub, hq]
  · intro arm w cap hw hcap
    have hlen : ([] : List ℕ).length + (T.below scanDepthMax dir []).length ≤ cap := by
      simpa [hbelow] using hcap
    simp only [dcScan, hdir]
    rw [if_neg fun h => h.2 (hw h.1)]
    split_ifs with hd
    · rw [hT.scanRec_eq hkids (fun q h hq => hdeep q h ((hsub q).trans hq)) hlen, hids]
      rfl
    · have hleaf : T.kids dir = [] := by
        by_contra hk
        exact hd (hkids [] dir rfl hk)
      simp [hV, hleaf]

theorem dcScan_gives_up {r : ℕ} (hdir : resolve T.child r path = some dir)
    (hd : (T.obj dir).isdir = true)
    (hscan : T.scanRec cap (scanDepthMax + 1) dir [] = .error .EAGAIN) (arm : ScanArm) (w : Watch)
    (passes : ℕ) : T.dcScan arm w r cap path passes = none := by
  induction passes with
  | zero => rfl
  | succ _ ih =>
    simp only [dcScan, hdir, hd, hscan, if_true, ih, ite_self]

end Tree

end TrieBenchmark.Serial

namespace TrieBenchmark.Bucketlock

open Namei Serial Run

variable {Name : Type} [DecidableEq Name] {t : ℕ}

/-- After any calls made one at a time, a scan below which no file has children and no directory
is past the cap returns in one pass, with the ids of the positive objects below it. -/
theorem dcScan_returns (bucketOf : ℕ → Name → ℕ) (rootname : Name) {l : Ledger (Sys Name) Name}
    (hr : Reach engine.record (fun _ a => a.thread = t) (.blank (Sys.init bucketOf rootname)) l)
    {path : List Name} {dir : ℕ} (hdir : l.s.d.resolve path = some dir)
    (hfile : ∀ q h, l.s.d.resolve (path ++ q) = some h →
      (∃ n, (l.s.d.resolve (path ++ q ++ [n])).isSome = true) → (l.s.d.dentry h).isdir = true)
    (hdeep : ∀ q h, l.s.d.resolve (path ++ q) = some h → (l.s.d.dentry h).isdir = true →
      q.length ≤ scanDepthMax) : ∃ hosts : List ℕ, hosts.Nodup ∧
      (∀ h, h ∈ hosts ↔ ∃ q, q ≠ [] ∧ l.s.d.resolve (path ++ q) = some h ∧
        (l.s.d.dentry h).neg = false) ∧
      ∀ arm (moves : List Bool) cap, hosts.length ≤ cap →
        l.s.d.tree.dcScan arm (moves.foldl (Watch.move arm) ⟨0, 0⟩) root cap path 1 =
          some (.ok (hosts.map fun h => (l.s.d.dentry h).id)) := by
  have hF := (client bucketOf rootname t).follows hr
  have hs := hF.run.inv.1
  obtain ⟨hosts, hnd, hmem, hscan⟩ := (hs.sib.listed hs.hash).dcScan_eq
    (hs.sib.kids_nodup hs.hash) hs.hash.rooted hdir hfile hdeep
  exact ⟨hosts, hnd, hmem, fun arm moves cap => hscan arm _ cap (Watch.settled moves)⟩

/-- A directory with a file in it. -/
theorem dcScan_returns_two : ∃ l : Ledger (Sys ℕ) ℕ,
    Reach engine.record (fun _ a => a.thread = 0) (.blank (Sys.init (fun p n => p + n) 0)) l ∧
      l.s.d.tree.dcScan .seq ⟨0, 0⟩ root 2 [] 1 = some (.ok [5, 6]) ∧
      ∃ hosts : List ℕ, hosts.Nodup ∧
        (∀ h, h ∈ hosts ↔ ∃ q, q ≠ [] ∧ l.s.d.resolve ([] ++ q) = some h ∧
          (l.s.d.dentry h).neg = false) ∧
        ∀ arm (moves : List Bool) cap, hosts.length ≤ cap →
          l.s.d.tree.dcScan arm (moves.foldl (Watch.move arm) ⟨0, 0⟩) root cap [] 1 =
            some (.ok (hosts.map fun h => (l.s.d.dentry h).id)) := by
  have he : (exec (guarded engine.record fun _ a => a.thread = 0)
      (.blank (Sys.init (fun p n => p + n) 0))
      (Act.op 0 (.add [1] 5) 3 ++ Act.op 0 (.addFile [1, 2] 6) 4)).map (fun l =>
        (l.s.d.tree.dcScan .seq ⟨0, 0⟩ root 2 [] 1, l.s.d.fresh,
          (List.range 3).all fun h => (l.s.d.tree.kids h).isEmpty || (l.s.d.dentry h).isdir)) =
      some (some (.ok [5, 6]), 3, true) := by
    rfl
  obtain ⟨l, hr, hl⟩ := reach_exec_map he
  simp only [Prod.mk.injEq, List.all_eq_true, List.mem_range, Bool.or_eq_true] at hl
  obtain ⟨hscan, hfresh, hdirs⟩ := hl
  have hF := (client _ _ 0).follows hr.of_guarded
  have hs := hF.run.inv.1
  refine ⟨l, hr.of_guarded, hscan, dcScan_returns _ _ hr.of_guarded rfl ?_ ?_⟩
  · intro q h hq ⟨n, hn⟩
    refine (hdirs h (hfresh ▸ hs.hash.resolve_lt hq)).resolve_left fun hk => ?_
    obtain ⟨c, hc⟩ := Option.isSome_iff_exists.mp hn
    rw [DCache.resolve, resolve_concat, show Namei.resolve _ _ _ = _ from hq, Option.bind_some] at hc
    have hmem := (hs.sib.listed hs.hash h c n).mpr hc
    rw [List.isEmpty_iff.mp hk] at hmem
    cases hmem
  · intro q h hq _
    have hlen := hs.hash.rooted.length_lt (fun _ _ hq => hs.hash.resolve_lt hq) hq
    exact hlen.le.trans (hfresh.le.trans (by decide))

def chainOf (name depth : ℕ) : List (Act ℕ) :=
  (List.range depth).flatMap fun k => Act.op 0 (.add (List.replicate (k + 1) name) 0) (k + 3)

def nestBelow (name depth child : ℕ) : List (Act ℕ) :=
  chainOf name depth ++
    Act.op 0 (.rename [child] (List.replicate depth name ++ [child])) (3 * depth + 12)

def nestPastCap : List (Act ℕ) :=
  chainOf 0 24 ++ nestBelow 1 23 0 ++ nestBelow 2 23 1 ++ nestBelow 3 23 2 ++ nestBelow 4 4 3

theorem nestPastCap_exec :
    (exec (guarded engine.record fun _ a => a.thread = 0)
      (.blank (Sys.init (fun p n => 8 * p + n) 0)) nestPastCap).map (fun l =>
        (l.s.pc 0, l.s.d.fresh, (l.s.d.dentry root).isdir,
          l.s.d.tree.scanRec 1000 (scanDepthMax + 1) root [])) =
      some (.done (.code none), 102, true, .error .EAGAIN) := by
  decide +kernel

theorem nestBelowFile_exec :
    (exec (guarded engine.record fun _ a => a.thread = 0) (.blank (Sys.init (fun p n => p + n) 0))
      (Act.op 0 (.addFile [1] 1) 3 ++ Act.op 0 (.add [2] 2) 3 ++
        Act.op 0 (.rename [2] [1, 2]) 15)).map (fun l =>
        (l.s.d.resolve [1, 2], l.s.d.dentry 2 |>.neg, l.s.d.tree.dcScan .seq ⟨1, 1⟩ root 9 [] 1)) =
      some (some 2, false, some (.ok [1])) := by
  rfl

/-- A scan of the root that makes passes forever, with room for ten times the objects; and one that
misses an object which a rename has put below a file. -/
theorem dcScan_fails :
    (∃ l : Ledger (Sys ℕ) ℕ,
      Reach engine.record (fun _ a => a.thread = 0)
        (.blank (Sys.init (fun p n => 8 * p + n) 0)) l ∧ l.s.pc 0 = .done (.code none) ∧
      l.s.d.fresh = 102 ∧ ∀ arm w passes, l.s.d.tree.dcScan arm w root 1000 [] passes = none) ∧
    ∃ l : Ledger (Sys ℕ) ℕ,
      Reach engine.record (fun _ a => a.thread = 0) (.blank (Sys.init (fun p n => p + n) 0)) l ∧
      l.s.d.resolve [1, 2] = some 2 ∧ (l.s.d.dentry 2).neg = false ∧
      l.s.d.tree.dcScan .seq ⟨1, 1⟩ root 9 [] 1 = some (.ok [1]) := by
  constructor
  · obtain ⟨l, hr, hl⟩ := reach_exec_map nestPastCap_exec
    simp only [Prod.mk.injEq] at hl
    obtain ⟨hpc, hfresh, hd, hscan⟩ := hl
    exact ⟨l, hr.of_guarded, hpc, hfresh, Tree.dcScan_gives_up rfl hd hscan⟩
  · obtain ⟨l, hr, hl⟩ := reach_exec_map nestBelowFile_exec
    simp only [Prod.mk.injEq] at hl
    exact ⟨l, hr.of_guarded, hl⟩

end TrieBenchmark.Bucketlock
