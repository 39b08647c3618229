import TrieBenchmark.Lib.Run
import TrieBenchmark.Seqlock.Frame

/-!
The chains of the seqlock engine change under the locks of their buckets, in every run in which
what a kill, a rename or an exchange read before its locks still holds under them.
-/

namespace TrieBenchmark.Seqlock

open Option List Function Run

variable {Name : Type}

/-- What a section read before its locks still holds. `dc_unlink` tests this itself; `lru_kill`
does not look at the name again, `dc_rename` and `dc_rename_exchange` do not look again at all. -/
def Stage.Current (d : Cache Name) (held : List Lock) : Stage Name → Prop
  | .killTest a parent => d.Live a → d.parent a = parent → Lock.bucket (d.bucket a) ∈ held
  | .renAgain r => d.Live r.victim ∧ d.parent r.victim = r.fromParent
  | .xchSwap x na nb =>
    (d.Live x.da ∧ d.parent x.da = x.pa ∧ (d.dentry x.da).name = na) ∧
      d.Live x.db ∧ d.parent x.db = x.pb ∧ (d.dentry x.db).name = nb
  | _ => True

def Sys.Current (s : Sys Name) : Act Name → Prop
  | .call _ _ => True
  | .step t _ =>
    match s.pc t with
    | .sect [] held stage => stage.Current s.d held
    | _ => True

section Decide

variable [DecidableEq Name]

instance (d : Cache Name) (held : List Lock) (stage : Stage Name) :
    Decidable (stage.Current d held) :=
  match stage with
  | .killTest a parent =>
    inferInstanceAs
      (Decidable (d.Live a → d.parent a = parent → Lock.bucket (d.bucket a) ∈ held))
  | .renAgain r =>
    inferInstanceAs (Decidable (d.Live r.victim ∧ d.parent r.victim = r.fromParent))
  | .xchSwap x na nb =>
    inferInstanceAs (Decidable
      ((d.Live x.da ∧ d.parent x.da = x.pa ∧ (d.dentry x.da).name = na) ∧
        d.Live x.db ∧ d.parent x.db = x.pb ∧ (d.dentry x.db).name = nb))
  | .addTest .. | .addFind .. | .addLink .. | .instFind .. | .instSet .. | .delFind ..
  | .delState .. | .delKids .. | .delSet .. | .unlRead .. | .unlTest .. | .unlKids ..
  | .unlDel .. | .renRead .. | .renState .. | .renLoop .. | .renTarget .. | .renBuckets ..
  | .renMove .. | .xchRead .. | .xchLoopA .. | .xchLoopB .. | .xchNames .. | .killRead ..
  | .killDel .. => .isTrue trivial

instance (s : Sys Name) (a : Act Name) : Decidable (s.Current a) :=
  match a with
  | .call _ _ => .isTrue trivial
  | .step t _ =>
    match h : s.pc t with
    | .sect [] held stage =>
      decidable_of_iff (stage.Current s.d held) (by rw [Sys.Current, h])
    | .idle | .done _ | .walk .. | .lkHop .. | .drop .. | .sect (_ :: _) .. =>
      .isTrue (by rw [Sys.Current, h]; trivial)

end Decide

/-- The facts a section has at a stage, with the locks it still takes and those it has. What it
found in a directory it keeps because it has the directory's lock. -/
@[grind =] def Stage.Knows [DecidableEq Name] (d : Cache Name) (todo held : List Lock) : Stage Name → Prop
  | .addTest p n _ _ _ | .addFind p n _ _ _ =>
    p < d.fresh ∧ Lock.dir p ∈ todo ++ held ∧ Lock.bucket (d.bucketOf p n) ∈ todo ++ held
  | .addLink p n _ _ _ =>
    p < d.fresh ∧ Lock.dir p ∈ held ∧ Lock.bucket (d.bucketOf p n) ∈ todo ++ held ∧
      d.childLookup p n = none
  | .unlRead path v => path ≠ [] ∧ v < d.fresh ∧ v ≠ root
  | .unlTest path v p => (path ≠ [] ∧ v < d.fresh ∧ v ≠ root) ∧ Lock.dir p ∈ todo ++ held
  | .unlKids v p | .unlDel v p | .killDel v p =>
    (d.Live v ∧ d.parent v = p) ∧ Lock.dir p ∈ held ∧ Lock.bucket (d.bucket v) ∈ todo ++ held
  | .renRead _ p _ => p < d.fresh
  | .renState r | .renLoop r _ => r.toParent < d.fresh
  | .renAgain r =>
    r.toParent < d.fresh ∧ Lock.dir r.fromParent ∈ todo ++ held ∧
      Lock.dir r.toParent ∈ todo ++ held
  | .renTarget r =>
    (r.toParent < d.fresh ∧ d.Live r.victim ∧ d.parent r.victim = r.fromParent) ∧
      Lock.dir r.fromParent ∈ held ∧ Lock.dir r.toParent ∈ held
  | .renBuckets r target =>
    ((r.toParent < d.fresh ∧ d.Live r.victim ∧ d.parent r.victim = r.fromParent) ∧
      Lock.dir r.fromParent ∈ held ∧ Lock.dir r.toParent ∈ held) ∧
      d.childLookup r.toParent r.toName = target ∧ target ≠ some r.victim
  | .renMove r target oldParent =>
    (((r.toParent < d.fresh ∧ d.Live r.victim ∧ d.parent r.victim = r.fromParent) ∧
      Lock.dir r.fromParent ∈ held ∧ Lock.dir r.toParent ∈ held) ∧
      d.childLookup r.toParent r.toName = target ∧ target ≠ some r.victim) ∧
      oldParent = r.fromParent ∧ Lock.bucket (d.bucket r.victim) ∈ todo ++ held ∧
      Lock.bucket (d.bucketOf r.toParent r.toName) ∈ todo ++ held
  | .xchRead da db => da ≠ db
  | .xchLoopA x _ | .xchLoopB x _ | .xchNames x => x.da ≠ x.db
  | .xchSwap x na nb =>
    x.da ≠ x.db ∧ (Lock.dir x.pa ∈ todo ++ held ∧ Lock.dir x.pb ∈ todo ++ held) ∧
      Lock.bucket (d.bucketOf x.pa na) ∈ todo ++ held ∧
      Lock.bucket (d.bucketOf x.pb nb) ∈ todo ++ held
  | .killRead a => a < d.fresh
  | .killTest a p => a < d.fresh ∧ p ≠ a ∧ Lock.dir p ∈ todo ++ held
  | _ => True

def Cont.Sound (cur : ℕ) (rest : List Name) : Cont Name → Prop
  | .unlink path => path ≠ [] ∧ (rest = [] → cur ≠ root)
  | _ => True

def Exit.Sound : Exit Name → Prop
  | .ret _ => True
  | .again path k => k.Sound root path

def Pc.Knows [DecidableEq Name] (d : Cache Name) : Pc Name → Prop
  | .walk cur rest k => cur < d.fresh ∧ k.Sound cur rest
  | .sect todo held stage => stage.Knows d todo held
  | .drop _ e => e.Sound
  | _ => True

def Next.Knows [DecidableEq Name] (d : Cache Name) (held : List Lock) : Next Name → Prop
  | .go more stage => stage.Knows d more held
  | .out e => e.Sound

variable [DecidableEq Name] {d d' : Cache Name} {todo held held' : List Lock} {stage : Stage Name}

theorem Stage.Knows.stable (h : stage.Knows d todo held) (hI : IndexOk d) (hI' : IndexOk d')
    (hW : Within held' d d') (hdisj : ∀ l ∈ held, l ∉ held') : stage.Knows d' todo held := by
  have hlt : ∀ {a}, a < d.fresh → a < d'.fresh := fun ha => Nat.lt_of_lt_of_le ha hW.fresh
  have hstay : ∀ {p a : ℕ}, Lock.dir p ∈ held → d.Live a → d.parent a = p →
      d'.Live a ∧ d'.parent a = p ∧ d'.bucket a = d.bucket a :=
    fun hp ha hpa => hW.stays (hdisj _ hp) ha hpa
  have hfind : ∀ {p : ℕ} {n : Name}, Lock.dir p ∈ held → d'.childLookup p n = d.childLookup p n :=
    fun hp => hW.childLookup_eq hI hI' (hdisj _ hp)
  cases stage with
  | addTest | addFind =>
    simp only [Stage.Knows, hW.bucketOf]
    exact ⟨hlt h.1, h.2⟩
  | addLink =>
    simp only [Stage.Knows, hW.bucketOf, hfind h.2.1]
    exact ⟨hlt h.1, h.2⟩
  | unlRead => exact ⟨h.1, hlt h.2.1, h.2.2⟩
  | unlTest => exact ⟨⟨h.1.1, hlt h.1.2.1, h.1.2.2⟩, h.2⟩
  | unlKids | unlDel | killDel =>
    obtain ⟨hv, hp, hb⟩ := hstay h.2.1 h.1.1 h.1.2
    simp only [Stage.Knows, hb]
    exact ⟨⟨hv, hp⟩, h.2⟩
  | renRead | renState | renLoop | killRead => exact hlt h
  | renAgain | killTest => exact ⟨hlt h.1, h.2⟩
  | renTarget =>
    obtain ⟨⟨hp, hv, hpv⟩, hfrom, hto⟩ := h
    obtain ⟨hv, hpv, -⟩ := hstay hfrom hv hpv
    exact ⟨⟨hlt hp, hv, hpv⟩, hfrom, hto⟩
  | renBuckets =>
    obtain ⟨⟨⟨hp, hv, hpv⟩, hfrom, hto⟩, ht⟩ := h
    obtain ⟨hv, hpv, -⟩ := hstay hfrom hv hpv
    simp only [Stage.Knows, hfind hto]
    exact ⟨⟨⟨hlt hp, hv, hpv⟩, hfrom, hto⟩, ht⟩
  | renMove =>
    obtain ⟨⟨⟨⟨hp, hv, hpv⟩, hfrom, hto⟩, ht⟩, hb⟩ := h
    obtain ⟨hv, hpv, hbv⟩ := hstay hfrom hv hpv
    simp only [Stage.Knows, hfind hto, hbv, hW.bucketOf]
    exact ⟨⟨⟨⟨hlt hp, hv, hpv⟩, hfrom, hto⟩, ht⟩, hb⟩
  | xchSwap =>
    simp only [Stage.Knows, hW.bucketOf]
    exact h
  | _ => exact h

theorem Pc.Knows.stable {pc : Pc Name} (h : pc.Knows d) (hI : IndexOk d) (hI' : IndexOk d')
    (hW : Within held' d d') (hdisj : ∀ l ∈ pc.held, l ∉ held') : pc.Knows d' := by
  cases pc with
  | walk => exact ⟨Nat.lt_of_lt_of_le h.1 hW.fresh, h.2⟩
  | sect => exact Stage.Knows.stable h hI hI' hW hdisj
  | _ => exact h

theorem Stage.Knows.acquire {l : Lock} (h : stage.Knows d (l :: todo) held) :
    stage.Knows d todo (l :: held) := by
  have hmem : ∀ {x}, x ∈ l :: todo ++ held → x ∈ todo ++ l :: held :=
    fun hx => perm_middle.mem_iff.mpr hx
  have hin : ∀ {x}, x ∈ held → x ∈ l :: held := fun hx => mem_cons_of_mem l hx
  cases stage with
  | addTest | addFind | renAgain => exact ⟨h.1, hmem h.2.1, hmem h.2.2⟩
  | addLink => exact ⟨h.1, hin h.2.1, hmem h.2.2.1, h.2.2.2⟩
  | unlTest => exact ⟨h.1, hmem h.2⟩
  | unlKids | unlDel | killDel => exact ⟨h.1, hin h.2.1, hmem h.2.2⟩
  | renTarget => exact ⟨h.1, hin h.2.1, hin h.2.2⟩
  | renBuckets => exact ⟨⟨h.1.1, hin h.1.2.1, hin h.1.2.2⟩, h.2⟩
  | renMove =>
    obtain ⟨⟨⟨hv, hfrom, hto⟩, ht⟩, hp, hb, hb'⟩ := h
    exact ⟨⟨⟨hv, hin hfrom, hin hto⟩, ht⟩, hp, hmem hb, hmem hb'⟩
  | xchSwap =>
    obtain ⟨hne, ⟨hda, hdb⟩, hba, hbb⟩ := h
    exact ⟨hne, ⟨hmem hda, hmem hdb⟩, hmem hba, hmem hbb⟩
  | killTest => exact ⟨h.1, h.2.1, hmem h.2.2⟩
  | _ => exact h

theorem mem_inOrder_left (lock : ℕ → Lock) (a b : ℕ) : lock a ∈ inOrder lock a b := by
  unfold inOrder
  split_ifs <;> simp

theorem mem_inOrder_right (lock : ℕ → Lock) (a b : ℕ) : lock b ∈ inOrder lock a b := by
  unfold inOrder
  split_ifs with hab
  · simp [hab]
  · simp
  · simp

structure Lands (d : Cache Name) (held : List Lock) (r : Cache Name × Next Name) : Prop where
  index : IndexOk r.1
  within : Within held d r.1
  knows : r.2.Knows r.1 held

theorem Lands.still {next : Next Name} (hI : IndexOk d) (h : next.Knows d held) :
    Lands d held (d, next) :=
  ⟨hI, .refl d, h⟩

theorem Lands.fail (hI : IndexOk d) (e : Errno) : Lands d held (d, .fail e) :=
  .still hI trivial

theorem Lands.edit (hI : IndexOk d') (hW : Within held d d') : Lands d held (d', .ok) :=
  ⟨hI, hW, trivial⟩

theorem stageStep_lands (oom : Bool) (hI : IndexOk d) (h : stage.Knows d [] held)
    (hc : stage.Current d held) : Lands d held (stageStep d stage oom) := by
  cases stage with try simp only [stageStep]
  | addTest | unlKids =>
    split_ifs
    · exact .fail hI _
    · exact .still hI h
  | addFind =>
    split_ifs with hf
    · exact .fail hI _
    · apply Lands.still hI
      exact ⟨h.1, h.2.1, h.2.2, by simpa using hf⟩
  | addLink =>
    split_ifs
    · exact .fail hI _
    · exact .edit (hI.link h.1 h.2.2.2) (.link hI h.2.1 h.2.2.1)
  | instFind =>
    split
    · exact .fail hI _
    · split_ifs
      · exact .fail hI _
      · exact .still hI trivial
  | instSet a | delSet a =>
    exact .edit (hI.modify a fun _ => ⟨rfl, rfl, rfl⟩) (.modify a fun _ => ⟨rfl, rfl, rfl⟩)
  | delFind =>
    split_ifs
    · exact .still hI trivial
    · split
      · exact .fail hI _
      · exact .still hI trivial
  | delState | delKids =>
    split_ifs
    · exact .fail hI _
    · exact .still hI trivial
  | unlRead =>
    apply Lands.still hI
    refine ⟨h, mem_append_left _ ?_⟩
    split_ifs
    · exact mem_inOrder_left _ _ _
    · exact mem_singleton_self _
  | unlTest =>
    obtain ⟨⟨hpath, hlt, hroot⟩, hdir⟩ := h
    split_ifs with ht
    · apply Lands.still hI
      exact ⟨hpath, fun hnil => absurd hnil hpath⟩
    · rw [Bool.or_eq_true, not_or, bne_iff_ne, not_not, Bool.not_eq_true] at ht
      apply Lands.still hI
      refine ⟨⟨⟨hlt, hroot, ht.1⟩, ht.2⟩, hdir, ?_⟩
      rw [Cache.bucket, ht.2]
      exact mem_append_left _ (mem_singleton_self _)
  | unlDel | killDel =>
    obtain ⟨⟨hv, hpv⟩, hdir, hbucket⟩ := h
    exact .edit (hI.unhash hv) (.unhash hI hv (by rw [hpv]; exact hdir) hbucket)
  | renRead => exact .still hI h
  | renState =>
    split_ifs
    · exact .fail hI _
    · exact .still hI h
    · apply Lands.still hI
      exact ⟨h, mem_append_left _ (mem_inOrder_left ..),
        mem_append_left _ (mem_inOrder_right ..)⟩
  | renLoop =>
    split_ifs
    · exact .fail hI _
    · apply Lands.still hI
      exact ⟨h, mem_append_left _ (mem_inOrder_left ..),
        mem_append_left _ (mem_inOrder_right ..)⟩
    · exact .still hI h
  | renAgain =>
    split_ifs
    · exact .fail hI _
    · apply Lands.still hI
      exact ⟨⟨h.1, hc⟩, h.2⟩
  | renTarget r =>
    split
    · rename_i hf
      apply Lands.still hI
      exact ⟨h, hf, by simp⟩
    · rename_i t hf
      split_ifs with ht
      · exact .fail hI _
      · have htv : t ≠ r.victim := fun he => ht (by simp [he])
        apply Lands.still hI
        exact ⟨h, hf, by simpa using htv⟩
  | renBuckets =>
    have hpv := h.1.1.2.2
    apply Lands.still hI
    exact ⟨h, hpv, mem_append_left _ (mem_inOrder_left ..),
      mem_append_left _ (mem_inOrder_right ..)⟩
  | renMove r _ oldParent =>
    obtain ⟨⟨⟨⟨hp, hv, hpv⟩, hfrom, hto⟩, ht, hne⟩, hold, hb, hb'⟩ := h
    have hpar : oldParent = d.parent r.victim := hold.trans hpv.symm
    rw [← hpv] at hfrom
    simp only [hpar]
    exact .edit (hI.dMove hv hp ht hne) (.dMove hI hv ht hne hfrom hb hto hb')
  | xchRead =>
    split_ifs
    · exact .still hI h
    · exact .still hI h
  | xchLoopA | xchLoopB =>
    split_ifs
    · exact .fail hI _
    · exact .still hI h
    · exact .still hI h
  | xchNames x =>
    have hdirs : ∀ {l}, l ∈ dirsWlock2 x.pa x.pb → ∀ ls, l ∈ dirsWlock2 x.pa x.pb ++ ls ++ held :=
      fun hl ls => mem_append_left _ (mem_append_left _ hl)
    have hbuckets : ∀ {l ls}, l ∈ ls → l ∈ dirsWlock2 x.pa x.pb ++ .rename :: ls ++ held :=
      fun hl => mem_append_left _ (mem_append_right _ (mem_cons_of_mem _ hl))
    apply Lands.still hI
    exact ⟨h, ⟨hdirs (mem_inOrder_left ..) _, hdirs (mem_inOrder_right ..) _⟩,
      hbuckets (mem_inOrder_left ..), hbuckets (mem_inOrder_right ..)⟩
  | xchSwap =>
    obtain ⟨⟨ha, hpa, hna⟩, hb, hpb, hnb⟩ := hc
    obtain ⟨hne, ⟨hda, hdb⟩, hba, hbb⟩ := h
    exact .edit (hI.exchange ha hb hne hpa hpb hna hnb)
      (.exchange hI ha hb hne hpa hpb hna hnb hda hdb hba hbb)
  | killRead =>
    split_ifs with hp
    · exact .fail hI _
    · apply Lands.still hI
      exact ⟨h, hp, by simp⟩
  | killTest a =>
    obtain ⟨hlt, hne, hdir⟩ := h
    split_ifs with ht
    · simp only [Bool.and_eq_true, decide_eq_true_eq, Bool.not_eq_true'] at ht
      obtain ⟨⟨hp, hu⟩, -⟩ := ht
      have hroot : a ≠ root := by
        intro he
        rw [he, hI.rootSelf.2.1] at hp
        exact hne (hp.symm.trans he.symm)
      have hv : d.Live a := ⟨hlt, hroot, hu⟩
      apply Lands.still hI
      exact ⟨⟨hv, hp⟩, hdir, hc hv hp⟩
    · exact .fail hI _

theorem Exit.Sound.pc {e : Exit Name} (h : e.Sound) (hI : IndexOk d) : e.pc.Knows d := by
  cases e with
  | ret => trivial
  | again => exact ⟨hI.rootSelf.1, h⟩

theorem Next.Knows.pc {next : Next Name} (h : next.Knows d held) (hI : IndexOk d) :
    (next.pc held).Knows d := by
  cases next with
  | go => exact h
  | out =>
    simp only [Next.pc]
    split_ifs
    · exact Exit.Sound.pc h hI
    · exact h

theorem walkStep_knows (hI : IndexOk d) {cur : ℕ} {rest : List Name} {k : Cont Name}
    (h : cur < d.fresh ∧ k.Sound cur rest) : (walkStep d cur k rest).Knows d := by
  cases rest with
  | nil =>
    simp only [walkStep]
    cases k with
    | add =>
      simp only [Cont.arrive]
      split_ifs
      · exact ⟨h.1, by simp, by simp⟩
      · trivial
    | instantiate => trivial
    | delete | renameFrom | exchangeA => exact ⟨hI.rootSelf.1, trivial⟩
    | deletePeek =>
      simp only [Cont.arrive]
      split_ifs <;> trivial
    | unlink => exact ⟨h.2.1, h.1, h.2.2 rfl⟩
    | renameTo => exact h.1
    | exchangeB da =>
      cases da with
      | none => trivial
      | some =>
        simp only [Cont.arrive]
        split_ifs with he
        · trivial
        · exact he
  | cons n rest =>
    simp only [walkStep]
    split
    · rename_i a hf
      have ha := (hI.childLookup_eq_some.mp hf).1
      refine ⟨ha.1, ?_⟩
      cases k with
      | unlink => exact ⟨h.2.1, fun _ => ha.2.1⟩
      | _ => trivial
    · cases k with
      | exchangeA => exact ⟨hI.rootSelf.1, trivial⟩
      | _ => trivial

theorem startAt_knows {path : List Name} {e : Errno} {k : Name → Pc Name}
    (h : path ≠ [] → ∀ n, (k n).Knows d) : (startAt path e k).Knows d := by
  unfold startAt
  split
  · trivial
  · rename_i n hn
    apply h
    intro hnil
    rw [hnil] at hn
    cases hn

theorem Call.start_knows (hI : IndexOk d) {c : Call Name} (h : ∀ a, c = .kill a → a < d.fresh) :
    c.start.Knows d := by
  have hroot : ∀ {rest : List Name} {k : Cont Name}, k.Sound root rest →
      (Pc.walk root rest k).Knows d := fun hk => ⟨hI.rootSelf.1, hk⟩
  cases c with
  | kill a => exact h a rfl
  | op o =>
    cases o with
    | addTyped | instantiate | delete => exact startAt_knows fun _ _ => hroot trivial
    | unlink =>
      exact startAt_knows fun hne _ => hroot ⟨hne, fun hnil => absurd hnil hne⟩
    | rename | exchange =>
      exact startAt_knows fun _ _ => startAt_knows fun _ _ => hroot trivial
    | lookup => trivial

variable {s s' : Sys Name} {a : Act Name} {t : ℕ}

structure Sys.Inv (s : Sys Name) : Prop where
  index : IndexOk s.d
  owned : ∀ t, ∀ l ∈ (s.pc t).held, s.locks l = some t
  knows : ∀ t, (s.pc t).Knows s.d

theorem Sys.Inv.init (bucketOf : ℕ → Name → ℕ) (rootname : Name) :
    (Sys.init bucketOf rootname).Inv :=
  ⟨.create bucketOf rootname, fun _ _ hl => (by cases hl), fun _ => trivial⟩

theorem Sys.Inv.advance (hs : s.Inv) {pc : Pc Name} {locks : Lock → Option ℕ}
    (hI : IndexOk d') (hW : Within (s.pc t).held s.d d') (hpc : pc.Knows d')
    (hown : ∀ l ∈ pc.held, locks l = some t)
    (hkeep : ∀ t' ≠ t, ∀ l, s.locks l = some t' → locks l = some t') :
    (⟨d', locks, update s.pc t pc⟩ : Sys Name).Inv := by
  refine ⟨hI, fun t' l hl => ?_, fun t' => ?_⟩
  · have hl : l ∈ (update s.pc t pc t').held := hl
    rcases eq_or_ne t' t with he | hne
    · rw [he] at hl ⊢
      rw [update_self] at hl
      exact hown l hl
    · rw [update_of_ne hne] at hl
      exact hkeep t' hne l (hs.owned t' l hl)
  · show (update s.pc t pc t').Knows d'
    rcases eq_or_ne t' t with he | hne
    · rw [he, update_self]
      exact hpc
    · rw [update_of_ne hne]
      apply (hs.knows t').stable hs.index hI hW
      intro l hl hl'
      have hsome := (hs.owned t' l hl).symm.trans (hs.owned t l hl')
      exact hne (some.inj hsome)

theorem Sys.Inv.act (hs : s.Inv) (hok : s.Current a) (ha : s.act a = some s') :
    s'.Inv ∧ Within (s.pc a.thread).held s.d s'.d := by
  cases a with
  | call _ c =>
    simp only [Sys.act] at ha
    split_ifs at ha with hadm
    cases ha
    rw [Bool.and_eq_true] at hadm
    refine ⟨hs.advance hs.index (.refl _) (Call.start_knows hs.index ?_) ?_ fun _ _ _ h => h,
      .refl _⟩
    · intro v hv
      simpa [hv, Sys.admits] using hadm.2
    · intro l hl
      rw [c.start_outside.held_eq] at hl
      cases hl
  | step t oom =>
    have hknow := hs.knows t
    have hown := hs.owned t
    simp only [Sys.act] at ha
    simp only [Sys.Current] at hok
    simp only [Act.thread]
    cases hpc : s.pc t with
    | idle | done => simp [hpc] at ha
    | walk cur rest k =>
      simp only [hpc, some.injEq] at ha hknow
      subst ha
      refine ⟨hs.advance hs.index (.refl _) (walkStep_knows hs.index hknow) ?_
        fun _ _ _ h => h, .refl _⟩
      intro l hl
      rw [(walkStep_outside cur k rest).held_eq] at hl
      cases hl
    | lkHop cur rest hosts res =>
      simp only [hpc, some.injEq] at ha
      subst ha
      have hout := lkStep_outside (d := s.d) cur hosts res rest
      refine ⟨hs.advance hs.index (.refl _) ?_ ?_ fun _ _ _ h => h, .refl _⟩
      · cases rest with
        | nil => trivial
        | cons =>
          simp only [lkStep]
          split <;> trivial
      · intro l hl
        rw [hout.held_eq] at hl
        cases hl
    | drop held e =>
      simp only [hpc, some.injEq] at ha hknow
      subst ha
      refine ⟨hs.advance hs.index (.refl _) (Exit.Sound.pc hknow hs.index) ?_ ?_, .refl _⟩
      · intro l hl
        rw [e.pc_outside.held_eq] at hl
        cases hl
      · intro t' hne l hl
        have hout : l ∉ held := by
          intro hin
          have hmine := hown l (by rw [hpc]; exact hin)
          exact hne (some.inj (hl.symm.trans hmine))
        simp [hout, hl]
    | sect todo held =>
      cases todo with
      | cons l =>
        simp only [hpc] at ha hknow
        split_ifs at ha with hfree
        cases ha
        refine ⟨hs.advance hs.index (.refl _) (Stage.Knows.acquire hknow) ?_ ?_, .refl _⟩
        · intro x hx
          rcases eq_or_ne x l with he | hne
          · rw [he, update_self]
          · rw [update_of_ne hne]
            apply hown
            rw [hpc]
            exact (mem_cons.mp hx).resolve_left hne
        · intro t' _ x hx
          rw [update_of_ne]
          · exact hx
          · intro he
            rw [he, hfree] at hx
            cases hx
      | nil =>
        simp only [hpc, some.injEq] at ha hknow hok
        subst ha
        have hL := stageStep_lands oom hs.index hknow hok
        have hheld : (s.pc t).held = held := by rw [hpc]; rfl
        refine ⟨hs.advance hL.index (hheld ▸ hL.within) (hL.knows.pc hL.index) ?_
          fun _ _ _ h => h, hL.within⟩
        intro l hl
        rw [Next.held_pc] at hl
        exact hown l (hheld ▸ hl)

theorem Sys.Inv.reach {bucketOf : ℕ → Name → ℕ} {rootname : Name}
    (hr : Reach Sys.act Sys.Current (Sys.init bucketOf rootname) s) : s.Inv :=
  hr.invariant (.init bucketOf rootname) fun _ _ _ hs hok ha => (Sys.Inv.act hs hok ha).1

/-- Whoever changes a chain has the lock of its bucket. -/
theorem chain_changes_under_its_lock {bucketOf : ℕ → Name → ℕ} {rootname : Name}
    (hr : Reach Sys.act Sys.Current (Sys.init bucketOf rootname) s) (hok : s.Current a)
    (ha : s.act a = some s') (b : ℕ) (hb : s'.d.hashChain b ≠ s.d.hashChain b) :
    s.locks (.bucket b) = some a.thread := by
  have hs := Sys.Inv.reach hr
  have hW := (hs.act hok ha).2
  have hheld : Lock.bucket b ∈ (s.pc a.thread).held := by
    by_contra hout
    exact hb (hW.chain b hout)
  exact hs.owned a.thread _ hheld

/-- Thread 1 adds `/1` and renames it to `/2`; thread 0 kills it up to the removal, with `k` of its
steps before the rename. Every name has a bucket of its own. -/
def killBesideRename (k : ℕ) : List (Act ℕ) :=
  Act.op 1 (.addTyped [1] 0 false true) 7 ++ .call 0 (.kill 1) :: Act.steps 0 k ++
    Act.op 1 (.rename [1] [2]) 14 ++ Act.steps 0 (4 - k)

def atChainTwo (s : Sys ℕ) : (List ℕ × Option ℕ) × Option (List ℕ) :=
  ((s.d.hashChain 2, s.locks (.bucket 2)), (s.act (.step 0 false)).map (·.d.hashChain 2))

theorem chain_changes_under_its_lock_kill : ∃ s s',
    Reach Sys.act Sys.Current (Sys.init (fun _ n => n) 0) s ∧ s.Current (.step 0 false) ∧
      s.act (.step 0 false) = some s' ∧ s'.d.hashChain 2 ≠ s.d.hashChain 2 ∧
      s.locks (.bucket 2) = some 0 := by
  have he : (exec (guarded Sys.act Sys.Current) (Sys.init (fun _ n => n) 0)
      (killBesideRename 0)).map (fun s => (atChainTwo s, decide (s.Current (.step 0 false)))) =
      some ((([1], some 0), some []), true) := by
    rfl
  obtain ⟨s, hr, hs⟩ := reach_exec_map he
  simp only [atChainTwo, Prod.mk.injEq, decide_eq_true_eq] at hs
  obtain ⟨⟨⟨hchain, -⟩, hnext⟩, hok⟩ := hs
  obtain ⟨s', ha, hchain'⟩ := map_eq_some_iff.mp hnext
  have hne : s'.d.hashChain 2 ≠ s.d.hashChain 2 := by
    rw [hchain, hchain']
    decide
  exact ⟨s, s', hr.of_guarded, hok, ha, hne,
    chain_changes_under_its_lock hr.of_guarded hok ha 2 hne⟩

/-- The kill read its victim's bucket before the rename: it removes the victim from a chain that
nobody has locked. -/
theorem kill_changes_unlocked_chain : ∃ s s',
    Reach Sys.act (fun _ _ => True) (Sys.init (fun _ n => n) 0) s ∧
      s.act (.step 0 false) = some s' ∧ s'.d.hashChain 2 ≠ s.d.hashChain 2 ∧
      s.locks (.bucket 2) = none := by
  have he : (exec Sys.act (Sys.init (fun _ n => n) 0) (killBesideRename 1)).map atChainTwo =
      some (([1], none), some []) := by
    rfl
  obtain ⟨s, hr, hs⟩ := reach_exec_map he
  simp only [atChainTwo, Prod.mk.injEq] at hs
  obtain ⟨⟨hchain, hfree⟩, hnext⟩ := hs
  obtain ⟨s', ha, hchain'⟩ := map_eq_some_iff.mp hnext
  refine ⟨s, s', hr, ha, ?_, hfree⟩
  rw [hchain, hchain']
  decide

/-- Outside the edits of what no longer holds, each dentry that is hashed is in the chain and the
child list of its parent and name, alone with that name, and no other one is in either. -/
theorem reach_indexes_filed {bucketOf : ℕ → Name → ℕ} {rootname : Name}
    (hr : Reach Sys.act Sys.Current (Sys.init bucketOf rootname) s) :
    Hlist.Filed s.d.hash s.d.Live s.d.bucket ∧ Hlist.Filed s.d.sib s.d.Live s.d.parent ∧
      ∀ a a', s.d.Live a → s.d.Live a' → s.d.parent a = s.d.parent a' →
        (s.d.dentry a).name = (s.d.dentry a').name → a = a' :=
  have hI := (Sys.Inv.reach hr).index
  ⟨hI.hash, hI.sib, hI.unique⟩

theorem reach_indexes_filed_kill : ∃ s, Reach Sys.act Sys.Current (Sys.init (fun _ n => n) 0) s ∧
    s.d.hashChain 2 = [1] ∧ Hlist.Filed s.d.hash s.d.Live s.d.bucket := by
  have he : (exec (guarded Sys.act Sys.Current) (Sys.init (fun _ n => n) 0)
      (killBesideRename 0)).map (·.d.hashChain 2) = some [1] := by
    rfl
  obtain ⟨s, hr, hs⟩ := reach_exec_map he
  exact ⟨s, hr.of_guarded, hs, (reach_indexes_filed hr.of_guarded).1⟩

/-- Thread 0 renames `/1` and stops before its locks. Thread 1 unlinks `/1` and renames `/11`, which
stood before it in its chain, into the chain of `/2`. -/
def renameOfUnlinked : List (Act ℕ) :=
  Act.op 1 (.addTyped [1] 0 false true) 7 ++ Act.op 1 (.addTyped [11] 0 false true) 7 ++
    Act.op 1 (.addTyped [2] 0 false true) 7 ++ Act.op 0 (.rename [1] [4]) 4 ++
    Act.op 1 (.unlink [1]) 9 ++ Act.op 1 (.rename [11] [12]) 14 ++ Act.steps 0 8

/-- The unlinked dentry is removed again where it stood: the other chain is cut. -/
theorem rename_changes_unlocked_chain : ∃ s s',
    Reach Sys.act (fun _ _ => True) (Sys.init (fun _ n => n % 10) 0) s ∧
      s.act (.step 0 false) = some s' ∧ s.d.hashChain 2 = [2, 3] ∧ s'.d.hashChain 2 = [2] ∧
      s.locks (.bucket 2) = none := by
  have he : (exec Sys.act (Sys.init (fun _ n => n % 10) 0) renameOfUnlinked).map atChainTwo =
      some (([2, 3], none), some [2]) := by
    rfl
  obtain ⟨s, hr, hs⟩ := reach_exec_map he
  simp only [atChainTwo, Prod.mk.injEq] at hs
  obtain ⟨⟨hchain, hfree⟩, hnext⟩ := hs
  obtain ⟨s', ha, hchain'⟩ := map_eq_some_iff.mp hnext
  exact ⟨s, s', hr, ha, hchain, hchain', hfree⟩

end TrieBenchmark.Seqlock
