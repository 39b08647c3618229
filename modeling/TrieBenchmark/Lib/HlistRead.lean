import TrieBenchmark.Lib.Hlist

/-!
What an edit of linked lists does to the `next` words and the marks that a concurrent reader
follows.
-/

namespace TrieBenchmark.Hlist.Family

variable {H N : Type} {L L' : Links H N} {c : H → List N} {h h' : H}
  {n old new olda newa oldb newb : N} {m : N} {c' : H → List N}

theorem next_erased (hF : Family L c) (hn : n ∈ c h) (hE : Erased L L' n) (m : N) :
    L'.next m = L.next m ∨ L.next m = some n ∧ L'.next m = L.next n := by
  by_cases hp : L.pprev n = some (.next m)
  · exact .inr ⟨hF.next_of_pprev hn hp, by rw [Links.next, hE.slot _ hp]⟩
  · left
    by_cases hm : m = n
    · rw [hm, Links.next, hE.node]
    · rw [Links.next, hE.word _ hp (by simpa using hm), Links.next]

theorem next_inserted (hI : Inserted L L' h n) (hm : m ≠ n) : L'.next m = L.next m := by
  rw [Links.next, hI.word _ (by simp) (by simpa using hm), Links.next]

theorem next_replaced (hF : Family L c) (hold : old ∈ c h) (hR : Replaced L L' old new)
    (hm : m ≠ new) : L'.next m = L.next m ∨ L.next m = some old ∧ L'.next m = some new := by
  by_cases hp : L.pprev old = some (.next m)
  · exact .inr ⟨hF.next_of_pprev hold hp, by rw [Links.next, hR.slot _ hp]⟩
  · left
    by_cases hmo : m = old
    · rw [hmo, Links.next, hR.node]
    · rw [Links.next, hR.word _ hp (by simpa using hmo) (by simpa using hm), Links.next]

def NextStable (L L' : Links H N) (c' : H → List N) (m : N) : Prop :=
  L'.next m = L.next m ∨ ∀ b, L'.next m = some b → ∃ k, b ∈ c' k

theorem nextStable_erased (hF : Family L c) (hn : n ∈ c h)
    (hE : Erased L L' n) (hc' : ∀ k x, x ∈ c' k ↔ x ∈ c k ∧ x ≠ n) (m : N) :
    NextStable L L' c' m := by
  rcases hF.next_erased hn hE m with he | ⟨-, he⟩
  · exact .inl he
  · right
    intro b hb
    rw [he] at hb
    obtain ⟨-, -, -, -, hself, -⟩ := hF.edit_facts hn
    refine ⟨h, (hc' h b).mpr ⟨hF.next_mem hn hb, ?_⟩⟩
    rintro rfl
    exact hself hb

theorem nextStable_replaced (hF : Family L c) (hold : old ∈ c h)
    (hR : Replaced L L' old new) {k : H} (hnew : new ∈ c' k) (hm : m ≠ new) :
    NextStable L L' c' m := by
  rcases hF.next_replaced hold hR hm with he | ⟨-, he⟩
  · exact .inl he
  · right
    intro b hb
    rw [he] at hb
    obtain rfl := Option.some.inj hb
    exact ⟨k, hnew⟩

theorem marked_of_pprev (hF : Family L c) (hn : n ∈ c h)
    (hp : L.pprev n = some (.next m)) : L.marked m = false := by
  obtain ⟨xs, ys, -, hpp, hslot, -⟩ := hF.around hn
  rw [hp, Option.some.injEq] at hpp
  rw [Links.marked, hpp, hslot]

theorem marked_erased (hF : Family L c) (hn : n ∈ c h) (hE : Erased L L' n)
    (hm : m ≠ n) : L'.marked m = L.marked m := by
  by_cases hp : L.pprev n = some (.next m)
  · rw [hF.marked_of_pprev hn hp, Links.marked, hE.slot _ hp]
  · rw [Links.marked, hE.word _ hp (by simpa using hm), Links.marked]

theorem marked_inserted (hI : Inserted L L' h n) (hm : m ≠ n) :
    L'.marked m = L.marked m := by
  rw [Links.marked, hI.word _ (by simp) (by simpa using hm), Links.marked]

theorem marked_replaced (hF : Family L c) (hold : old ∈ c h) (hR : Replaced L L' old new)
    (hmo : m ≠ old) (hmn : m ≠ new) : L'.marked m = L.marked m := by
  by_cases hp : L.pprev old = some (.next m)
  · rw [hF.marked_of_pprev hold hp, Links.marked, hR.slot _ hp]
  · rw [Links.marked, hR.word _ hp (by simpa using hmo) (by simpa using hmn), Links.marked]

theorem marked_swapped (hF : Family L c) (hold : old ∈ c h) (hS : Swapped L L' old new h h')
    (hmo : m ≠ old) (hmn : m ≠ new) : L'.marked m = L.marked m := by
  cases hS with
  | inPlace hR => exact hF.marked_replaced hold hR hmo hmn
  | moved hE hI => rw [marked_inserted hI hmn, hF.marked_erased hold hE hmo]

theorem marked_old_swapped (hon : old ≠ new) (hS : Swapped L L' old new h h') :
    L'.marked old = true := by
  cases hS with
  | inPlace hR => rw [Links.marked, hR.node]
  | moved hE hI => rw [marked_inserted hI hon, Links.marked, hE.node]

variable [DecidableEq H]

theorem nextStable_swapped (hF : Family L c) (hold : old ∈ c h) (hS : Swapped L L' old new h h')
    (hc' : ∀ k x, x ∈ c' k ↔ x ∈ c k ∧ x ≠ old ∨ k = h' ∧ x = new) (hm : m ≠ new) :
    NextStable L L' c' m := by
  have hnew : new ∈ c' h' := (hc' h' new).mpr (.inr ⟨rfl, rfl⟩)
  cases hS with
  | inPlace hR => exact hF.nextStable_replaced hold hR hnew hm
  | moved hE hI =>
    obtain ⟨c₁, hF₁, hmem₁⟩ := hF.erased hold hE
    rw [NextStable, next_inserted hI hm]
    rcases hF.nextStable_erased hold hE hmem₁ m with he | hb
    · exact .inl he
    · right
      intro b hb'
      obtain ⟨k, hk⟩ := hb b hb'
      exact ⟨k, (hc' k b).mpr (.inl ((hmem₁ k b).mp hk))⟩

theorem marked_exchanged (hF : Family L c) (hola : olda ∈ c h) (holb : oldb ∈ c h')
    (hnea : ∀ k, newa ∉ c k) (hneb : ∀ k, newb ∉ c k) (hold : olda ≠ oldb)
    (hX : Exchanged L L' olda newa oldb newb) :
    L'.marked olda = true ∧ L'.marked oldb = true ∧
      ∀ m, m ≠ olda → m ≠ oldb → m ≠ newa → m ≠ newb → L'.marked m = L.marked m := by
  have hane : ∀ {x}, (∀ k, x ∉ c k) → olda ≠ x ∧ oldb ≠ x := fun hx =>
    ⟨fun he => hx h (he ▸ hola), fun he => hx h' (he ▸ holb)⟩
  rcases hX with ⟨L₁, hR, hR'⟩ | ⟨L₁, hR, hR'⟩
  · obtain ⟨c₁, hF₁, hmem₁⟩ := hF.replaced hola hnea hR
    have holb₁ : oldb ∈ c₁ h' := (hmem₁ _ _).mpr (.inl ⟨holb, hold.symm⟩)
    refine ⟨?_, by rw [Links.marked, hR'.node], fun m hma hmb hmna hmnb => ?_⟩
    · rw [hF₁.marked_replaced holb₁ hR' hold (hane hneb).1, Links.marked, hR.node]
    · rw [hF₁.marked_replaced holb₁ hR' hmb hmnb, hF.marked_replaced hola hR hma hmna]
  · obtain ⟨c₁, hF₁, hmem₁⟩ := hF.replaced holb hneb hR
    have hola₁ : olda ∈ c₁ h := (hmem₁ _ _).mpr (.inl ⟨hola, hold⟩)
    refine ⟨by rw [Links.marked, hR'.node], ?_, fun m hma hmb hmna hmnb => ?_⟩
    · rw [hF₁.marked_replaced hola₁ hR' hold.symm (hane hnea).2, Links.marked, hR.node]
    · rw [hF₁.marked_replaced hola₁ hR' hma hmna, hF.marked_replaced holb hR hmb hmnb]

theorem nextStable_twice {L₁ : Links H N} (hF : Family L c) (hola : olda ∈ c h)
    (holb : oldb ∈ c h') (hnea : ∀ k, newa ∉ c k) (hold : olda ≠ oldb)
    (hR : Replaced L L₁ olda newa) (hR' : Replaced L₁ L' oldb newb) {k₁ k₂ : H}
    (ha : newa ∈ c' k₁) (hb : newb ∈ c' k₂) (hma : m ≠ newa) (hmb : m ≠ newb) :
    NextStable L L' c' m := by
  obtain ⟨c₁, hF₁, hmem₁⟩ := hF.replaced hola hnea hR
  have holb₁ : oldb ∈ c₁ h' := (hmem₁ h' oldb).mpr (.inl ⟨holb, hold.symm⟩)
  rcases hF₁.nextStable_replaced holb₁ hR' hb hmb with he | he
  · rw [NextStable, he]
    exact hF.nextStable_replaced hola hR ha hma
  · exact .inr he

theorem nextStable_exchanged (hF : Family L c) (hola : olda ∈ c h)
    (holb : oldb ∈ c h') (hnea : ∀ k, newa ∉ c k) (hneb : ∀ k, newb ∉ c k) (hold : olda ≠ oldb)
    (hX : Exchanged L L' olda newa oldb newb) {k₁ k₂ : H} (ha : newa ∈ c' k₁) (hb : newb ∈ c' k₂)
    (hma : m ≠ newa) (hmb : m ≠ newb) : NextStable L L' c' m := by
  rcases hX with ⟨L₁, hR, hR'⟩ | ⟨L₁, hR, hR'⟩
  · exact hF.nextStable_twice hola holb hnea hold hR hR' ha hb hma hmb
  · exact hF.nextStable_twice holb hola hneb hold.symm hR hR' hb ha hmb hma

end TrieBenchmark.Hlist.Family
