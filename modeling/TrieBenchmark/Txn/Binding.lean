import TrieBenchmark.Txn.Lookup

/-!
How long a name stays bound while the generation does not move: a name of a directory is given
up only with a directory that is empty and stays so.
-/

namespace TrieBenchmark.Txn

open Edits

variable {Name : Type} {d d' : Cache Name} {arm : Arm} {touched back : Option ℕ} {h p : ℕ}
  {C : Checked Name → Prop}

namespace Cache

variable {m : Move Name} {x : Xchg Name} {top topa topb : ℕ} {neg : Option ℕ}

theorem bumpGen_gen (arm : Arm) (a : ℕ) : (d.bumpGen arm a).gen =
    if arm = .global ∧ (d.dentry a).isdir = true then d.gen + 2 else d.gen := by
  unfold bumpGen
  split_ifs <;> simp_all

theorem stackCommit_gen (hh : d.hostOf top < d.fresh) : (d.stackCommit arm m top neg).gen =
    if arm = .global ∧ (d.dentry (d.hostOf top)).isdir = true then d.gen + 2 else d.gen := by
  have hne : d.hostOf top ≠ d.fresh := Nat.ne_of_lt hh
  unfold stackCommit
  cases m.cross <;>
    simp [edit, setParent, setTop, modify, alloc, bumpGen_gen, hne]

theorem exchangeCommit_gen (hX : XchgTops d x topa topb) (hI : IndexOk d) :
    (d.exchangeCommit arm x topa topb).gen =
      d.gen + (if arm = .global ∧ (d.dentry (d.hostOf topa)).isdir = true then 2 else 0) +
        (if arm = .global ∧ (d.dentry (d.hostOf topb)).isdir = true then 2 else 0) := by
  obtain ⟨ha, hb, hab⟩ := hX.hosts hI
  obtain ⟨h₁, h₃⟩ := ne_fresh ha
  obtain ⟨h₂, h₄⟩ := ne_fresh hb
  unfold exchangeCommit
  cases x.cross <;>
    simp only [edit, setParent, modify, Bool.false_eq_true, if_false, if_true, bumpGen_gen,
      bumpGen_dentry] <;>
    simp [setTop, modify, alloc, h₁, h₂, h₃, h₄, hab, hab.symm] <;>
    split_ifs <;> omega

end Cache

/-- `h` has no child and gets none: it is a file, or its child head is sealed. -/
def Barren (d : Cache Name) (h : ℕ) : Prop :=
  (d.dentry h).isdir = false ∨ d.sealed h = true

def KidsInDirs (d : Cache Name) : Prop :=
  ∀ p < d.fresh, d.kids p ≠ [] → (d.dentry p).isdir = true

theorem Barren.kids (hb : Barren d h) (hK : KidsInDirs d) (hS : SealOk d) (hh : h < d.fresh) :
    d.kids h = [] := by
  rcases hb with hf | hs
  · by_contra hne
    rw [hK h hh hne] at hf
    cases hf
  · exact hS h hs

theorem Barren.effect (hb : Barren d h) (hE : Effect arm C d touched back d') (hI : IndexOk d)
    (hh : h < d.fresh) : Barren d' h := by
  rcases hb with hf | hs
  · exact .inl (((hE.indexStep hI).kind h hh).2.2.trans hf)
  · exact .inr (hE.sealed_mono hs)

theorem KidsInDirs.effect (hK : KidsInDirs d) (hE : Effect arm C d touched back d')
    (hI : IndexOk d) (hP : ParentsOk d) (hadd : ∀ p, C (.add p) → (d.dentry p).isdir = true)
    (hren : ∀ m neg, C (.rename m neg) → (d.dentry m.newParent).isdir = true) :
    KidsInDirs d' := by
  intro p _ hne
  have hlt : p < d.fresh ∧ (d.dentry p).isdir = true := by
    by_cases h₀ : d.kids p = []
    · obtain ⟨-, hlt, h | ⟨m, neg, rfl, h⟩⟩ := hE.first_kid hI h₀ hne
      · exact ⟨hlt, hadd p h.2⟩
      · exact ⟨hlt, hren m neg h⟩
    · have hlt : p < d.fresh := by
        by_contra hge
        exact h₀ (hP.kids_fresh hI (Nat.not_lt.mp hge))
      exact ⟨hlt, hK p hlt h₀⟩
  exact ((hE.indexStep hI).kind p hlt.1).2.2.trans hlt.2

theorem Effect.gen_le (hE : Effect arm C d touched back d') (hI : IndexOk d) : d.gen ≤ d'.gen := by
  cases hE with
  | stack _ top _ ht =>
    rw [Cache.stackCommit_gen (hI.host_lt ht)]
    split_ifs <;> omega
  | exchange _ _ _ hX =>
    rw [Cache.exchangeCommit_gen hX hI]
    omega
  | remove _ sealIt => cases sealIt <;> exact Nat.le_refl _
  | fold => cases arm <;> exact Nat.le_refl _
  | _ => exact Nat.le_refl _

theorem Effect.touched_dead (hE : Effect arm C d touched back d') (hI : IndexOk d) {a : ℕ}
    (ha : touched = some a) : ¬ d.linked a := by
  cases hE with
  | name _ _ hh | swap _ _ hh => exact Option.some.inj ha ▸ hh
  | fold _ hn hs => exact Option.some.inj ha ▸ hI.host_not_linked hn hs
  | _ => cases ha

/-- What is left of an entry whose name was given up: nothing is below it, and the tops it had
are out of the index. -/
structure Left (d d' : Cache Name) (h : ℕ) : Prop where
  kids : d.kids h = []
  barren : Barren d' h
  neg : (d'.dentry h).neg = (d.dentry h).neg
  tops : ∀ T < d.fresh, d.hostOf T = h → ¬ d'.linked T

section

variable [DecidableEq Name]

theorem childLookup_eq_some (hI : IndexOk d) {name : Name} : d.childLookup p name = some h ↔
    ∃ T, d.linked T ∧ (d.dentry T).iparent = p ∧ (d.dentry T).iname = name ∧ d.hostOf T = h := by
  rw [Cache.childLookup, Option.map_eq_some_iff]
  constructor
  · rintro ⟨T, hf, he⟩
    obtain ⟨hl, hp, hn⟩ := hI.findTop_eq_some.mp hf
    exact ⟨T, hl, hp, hn, he⟩
  · rintro ⟨T, hl, hp, hn, he⟩
    exact ⟨T, hI.findTop_eq_some.mpr ⟨hl, hp, hn⟩, he⟩

theorem childLookup_of_kids_nil (hI : IndexOk d) (hk : d.kids p = []) (name : Name) :
    d.childLookup p name = none := by
  apply Option.eq_none_iff_forall_not_mem.mpr
  intro h hb
  obtain ⟨T, hl, hp, -⟩ := (childLookup_eq_some hI).mp hb
  have hmem := (hI.kids p T).mpr ⟨hl, hp⟩
  rw [hk] at hmem
  cases hmem

/-- A name stays bound to its entry over a step that leaves the generation alone, or the entry
is left with nothing below it. -/
theorem Effect.binding (hE : Effect .global C d touched back d') (hI : IndexOk d)
    (hK : KidsInDirs d) (hgen : d'.gen = d.gen) {name : Name}
    (hb : d.childLookup p name = some h) : d'.childLookup p name = some h ∨ Left d d' h := by
  have hI' := hE.indexOk hI
  have hH := hE.indexStep hI
  obtain ⟨T, hT, hp, hn, rfl⟩ := (childLookup_eq_some hI).mp hb
  have hlt := hI.lt hT
  have hhost := hI.hostOf_host hlt
  have hkeep : d'.linked T → d'.childLookup p name = some (d.hostOf T) := by
    intro hT'
    obtain ⟨hp', hn'⟩ := hH.key T hlt fun he => hE.touched_dead hI he hT
    exact (childLookup_eq_some hI').mpr
      ⟨T, hT', hp'.trans hp, hn'.trans hn, hH.kind.hostOf hlt⟩
  -- once the top is out, no other top of the entry is in
  have htops : back = none → ¬ d'.linked T → ∀ T' < d.fresh, d.hostOf T' = d.hostOf T →
      ¬ d'.linked T' := by
    intro hback hT' U hU he hU'
    rcases hH.came U hU' with hl | hge | hb
    · exact hT' (hI.hostOf_inj hl hT he ▸ hU')
    · exact Nat.not_lt.mpr hge hU
    · rw [hback] at hb
      cases hb
  have hfile : (d.dentry (d.hostOf T)).isdir = false → d.kids (d.hostOf T) = [] := by
    intro hf
    by_contra hne
    rw [hK _ hhost.1 hne] at hf
    cases hf
  have hlive : d'.mark T = false → d'.childLookup p name = some (d.hostOf T) := fun hm =>
    hkeep ((hI'.live T (Nat.lt_of_lt_of_le hlt hH.fresh) (hI.alloc T hT).2).mp hm)
  have hmark := hI.not_mark hT
  have hkind := fun hf : (d.dentry (d.hostOf T)).isdir = false =>
    ((hH.kind _ hhost.1).2.2.trans hf : (d'.dentry (d.hostOf T)).isdir = false)
  by_cases hT' : d'.linked T
  · exact .inl (hkeep hT')
  · cases hE with
    | read => exact absurd hT hT'
    | flag | ident | flip | name | swap => exact .inl (hlive hmark)
    | add _ _ _ _ _ _ _ _ _ hname =>
      exact absurd (((hI.add_edited hname).linked_iff hI).mpr (.inl ⟨hT, by simp [Edit.out]⟩)) hT'
    | remove top _ ht hseal hk =>
      have ho : T = top := by
        by_contra hne
        exact hT' (((hI.remove_edited ht).linked_iff hI).mpr (.inl ⟨hT, by simp [Edit.out, hne]⟩))
      subst ho
      refine .inr ⟨?_, ?_, by rw [Cache.removeCommit_dentry], htops rfl hT'⟩
      · cases hd : (d.dentry (d.hostOf T)).isdir with
        | true => exact hk (hseal hd)
        | false => exact hfile hd
      · cases hd : (d.dentry (d.hostOf T)).isdir with
        | true => exact .inr (by simp [Cache.removeCommit_sealed, hseal hd])
        | false => exact .inl (hkind hd)
    | stack _ top neg ht _ _ hcl _ _ hneg =>
      have hf : (d.dentry (d.hostOf T)).isdir = false := by
        rw [Cache.stackCommit_gen (hI.host_lt ht)] at hgen
        have ho : T = top ∨ neg = some T := by
          by_contra hne
          refine hT' (((hI.stack_edited ht hcl).linked_iff hI).mpr (.inl ⟨hT, fun ho => hne ?_⟩))
          cases neg <;> simpa [Edit.out, eq_comm] using ho
        rcases ho with rfl | hg
        · split_ifs at hgen with hd
          · omega
          · simpa using hd
        · rw [(hneg T hg).1]
          exact (hneg T hg).2
      refine .inr ⟨hfile hf, .inl (hkind hf), ?_, htops rfl hT'⟩
      rw [Cache.stackCommit_old hhost.1]
      split_ifs <;> rfl
    | exchange x topa topb hX =>
      have hf : (d.dentry (d.hostOf T)).isdir = false := by
        rw [Cache.exchangeCommit_gen hX hI] at hgen
        have ho : T = topa ∨ T = topb := by
          by_contra hne
          refine hT' (((hI.exchange_edited hX).linked_iff hI).mpr (.inl ⟨hT, ?_⟩))
          simpa [Edit.out] using hne
        rcases ho with rfl | rfl <;> split_ifs at hgen <;> first | omega | simp_all
      obtain ⟨hha, hhb, hab⟩ := hX.hosts hI
      refine .inr ⟨hfile hf, .inl (hkind hf), ?_, htops rfl hT'⟩
      rw [Cache.exchangeCommit_dentry_eq .global x hha hhb hab,
        if_neg (Nat.ne_of_lt hhost.1), if_neg (show d.hostOf T ≠ d.fresh + 1 by omega)]
      split_ifs <;> rfl
    | fold n hl hs hname hparent =>
      have hEd : Edited d _ (d.foldCommit .global n) := hI.fold_edited hl hs hname hparent
      have ho : T = n := by
        by_contra hne
        exact hT' ((hEd.linked_iff hI).mpr (.inl ⟨hT, by simp [Edit.out, hne]⟩))
      subst ho
      -- the host stands where its shell stood
      obtain ⟨hp', hn'⟩ := hEd.place T (d.hostOf T) (by simp)
      refine .inl ((childLookup_eq_some hI').mpr ⟨d.hostOf T, ?_, hp'.trans hp, hn'.trans hn, ?_⟩)
      · exact (hEd.linked_iff hI).mpr (.inr (by simp [Edit.inn]))
      · rw [hH.kind.hostOf hhost.1, hI.hostOf_hostOf hlt]

/-- A walk that was right stays right over such a step, or its last host is left. -/
theorem Walked.effect (hE : Effect .global C d touched back d') (hI : IndexOk d)
    (hK : KidsInDirs d) (hgen : d'.gen = d.gen) {cur : ℕ} {names : List Name} {hosts : List ℕ}
    (hW : Walked d cur names hosts) (hlast : hosts.getLast? = some h) :
    Walked d' cur names hosts ∨ Left d d' h := by
  induction names generalizing cur hosts with
  | nil =>
    cases hosts with
    | nil => cases hlast
    | cons => cases hW
  | cons _ names ih =>
    cases hosts with
    | nil => cases hlast
    | cons x hosts =>
      cases hosts with
      | nil =>
        obtain rfl : x = h := by simpa using hlast
        cases names with
        | nil => exact (hE.binding hI hK hgen hW.1).imp (fun h => ⟨h, trivial⟩) id
        | cons => cases hW.2
      | cons =>
        rcases hE.binding hI hK hgen hW.1 with hb | hL
        · refine (ih hW.2 ?_).imp (fun h => ⟨hb, h⟩) id
          simpa using hlast
        · -- the next host is below it
          cases names with
          | nil => cases hW.2
          | cons =>
            have hy := hW.2.1
            rw [childLookup_of_kids_nil hI hL.kids] at hy
            cases hy

end

end TrieBenchmark.Txn
