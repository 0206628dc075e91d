import Draft.Consensus.Safety

/-!
# Adopting and extending the log of a term

The two steps that change logs, and the invariant of every step.  A node that loses a part
of its log takes none of them; it keeps the invariant where the part differs from the log
of its leader.
-/

namespace Draft.Consensus.Protocol

variable {N α : Type*} [DecidableEq N] {term : α → Nat} {members : Finset N} {base : List α}
  {s s' : Protocol N α}

/-! ## Adopting -/

theorem adopt_log_self {n : N} {t k : Nat} :
    (s.adopt n t k).log n = (s.leaders.log t).take k := by
  simp [adopt]

theorem adopt_log_of_ne {n m : N} {t k : Nat} (hm : m ≠ n) :
    (s.adopt n t k).log m = s.log m := by
  simp [adopt, Function.update_of_ne hm]

theorem adopt_adopted_self {n : N} {t k : Nat} :
    (s.adopt n t k).adopted n t = max (s.adopted n t) k := by
  simp [adopt]

theorem adopt_adopted_of_ne {n m : N} {t u k : Nat} (h : ¬ (m = n ∧ u = t)) :
    (s.adopt n t k).adopted m u = s.adopted m u := by
  simp only [adopt, if_neg h]

theorem grows_adopt (s : Protocol N α) (n : N) (t k : Nat) : Grows s (s.adopt n t k) where
  leaders := .refl _
  current := fun _ => le_rfl
  candidateLog := fun _ _ _ h => h
  ballot := fun _ _ _ h => h
  adopted := by
    intro m u
    by_cases h : m = n ∧ u = t
    · obtain ⟨rfl, rfl⟩ := h
      rw [adopt_adopted_self]
      exact le_max_left _ _
    · rw [adopt_adopted_of_ne h]

theorem prefix_take_of_keep {p l g : List α} {k : Nat} (hl : p <+: l) (hg : p <+: g)
    (hkeep : g.take k <+: l → l.length ≤ k) : p <+: g.take k := by
  refine List.prefix_take_iff.mpr ⟨hg, ?_⟩
  by_contra hlt
  have htake : g.take k <+: l := by
    rw [prefix_take_eq hg (by omega)]
    exact (List.take_prefix _ _).trans hl
  have := hkeep htake
  have := hl.length_le
  omega

theorem prefix_take_of_le {g : List α} {j k : Nat} (h : g.take j <+: g.take k) :
    g.take (max j k) <+: g.take k := by
  rcases Nat.le_total j k with hjk | hkj
  · rw [max_eq_right hjk]
  · rw [max_eq_left hkj]
    exact h

theorem Inv.adopt (h : Inv term members base s) {n : N} {t k : Nat} (ht : s.current n = t)
    (he : s.leaders.elected t) (hk : k ≤ (s.leaders.log t).length)
    (hkeep : (s.leaders.log t).take k <+: s.log n → (s.log n).length ≤ k) :
    Inv term members base (s.adopt n t k) := by
  have grows := grows_adopt s n t k
  have blocked : ∀ u i, s.Blocked members u i → (s.adopt n t k).Blocked members u i := by
    intro u i hb
    refine hb.mono grows.current fun m hm => adopt_adopted_of_ne ?_
    rintro ⟨rfl, rfl⟩
    omega
  have hprefix : (s.leaders.log t).take k <+: s.leaders.log t := List.take_prefix _ _
  have atLog : ∀ {P : N → List α → Prop}, (∀ m, P m (s.log m)) →
      P n ((s.leaders.log t).take k) → ∀ m, P m ((s.adopt n t k).log m) := by
    intro P hold hthis m
    by_cases hm : m = n
    · subst hm; rw [adopt_log_self]; exact hthis
    · rw [adopt_log_of_ne hm]; exact hold m
  exact { h with
    log_follows := atLog (P := fun _ l => Follows term base s.leaders l) h.log_follows
      ((h.leader_follows t he).take (h.base_le_of_keep he hkeep))
    log_ordered := atLog (P := fun _ l => Ordered term base l) h.log_ordered
      fun i j x y hi hij hx hy => h.leader_ordered t he i j x y hi hij
        (prefix_getElem? hprefix hx) (prefix_getElem? hprefix hy)
    log_bounded := atLog (P := fun m l => Bounded term base l (s.current m)) h.log_bounded
      fun i x hi hx => ht ▸ h.leader_bounded t he i x hi (prefix_getElem? hprefix hx)
    adopted_le := by
      intro m u hm
      by_cases hmu : m = n ∧ u = t
      · obtain ⟨rfl, rfl⟩ := hmu
        refine ⟨he, ht.ge, ?_⟩
        rw [adopt_adopted_self]
        refine max_le ?_ hk
        rcases Nat.eq_zero_or_pos (s.adopted m u) with h0 | h0
        · exact h0 ▸ Nat.zero_le _
        · exact (h.adopted_le m u h0).2.2
      · rw [adopt_adopted_of_ne hmu] at hm ⊢
        exact h.adopted_le m u hm
    held := by
      intro m u hu
      by_cases hm : m = n
      · subst hm
        obtain rfl : u = t := hu.symm.trans ht
        rw [adopt_log_self, adopt_adopted_self]
        refine prefix_take_of_le ?_
        exact prefix_take_of_keep (h.held m u ht) (List.take_prefix _ _) hkeep
      · rw [adopt_adopted_of_ne (by simp [hm]), adopt_log_of_ne hm]
        exact h.held m u hu
    later_leader := fun u v i huv ho hv => (h.later_leader u v i huv ho hv).imp_right (blocked u i)
    kept := by
      intro m u i ho hi
      by_cases hm : m = n
      · subst hm
        rw [adopt_log_self]
        rcases Nat.lt_or_ge i (s.adopted m u) with hold | hnew
        · -- adopted before: the log of `t` holds it as well, unless it is blocked
          rcases h.kept m u i ho hold with hkept | hbl
          · have hut := (h.adopted_le m u (by omega)).2.1
            rcases Nat.eq_or_lt_of_le hut with rfl | hlt
            · rw [ht] at hkept ⊢
              exact .inl (prefix_take_of_keep hkept (List.take_prefix _ _) hkeep)
            · rcases h.later_leader u t i (ht ▸ hlt) ho he with hlead | hbl
              · exact .inl (prefix_take_of_keep hkept hlead hkeep)
              · exact .inr (blocked u i hbl)
          · exact .inr (blocked u i hbl)
        · obtain rfl : u = t := by
            by_contra hut
            rw [adopt_adopted_of_ne (by simp [hut])] at hi
            omega
          rw [adopt_adopted_self] at hi
          exact .inl (List.take_prefix_take_left (by omega))
      · rw [adopt_adopted_of_ne (by simp [hm])] at hi
        rw [adopt_log_of_ne hm]
        exact (h.kept m u i ho hi).imp_right (blocked u i)
    voted_kept := by
      intro m u v c g i huv ho hi hb hc
      have hv := (h.ballot_term m v c hb).1
      rw [adopt_adopted_of_ne (by rintro ⟨rfl, rfl⟩; omega)] at hi
      exact (h.voted_kept m u v c g i huv ho hi hb hc).imp_right (blocked u i) }

/-! ## Cutting -/

def cut (s : Protocol N α) (n : N) (k : Nat) : Protocol N α :=
  { s with log := Function.update s.log n ((s.log n).take k) }

theorem cut_log_self {n : N} {k : Nat} : (s.cut n k).log n = (s.log n).take k := by
  simp [cut]

theorem cut_log_of_ne {n m : N} {k : Nat} (hm : m ≠ n) : (s.cut n k).log m = s.log m := by
  simp [cut, Function.update_of_ne hm]

theorem grows_cut (s : Protocol N α) (n : N) (k : Nat) : Grows s (s.cut n k) :=
  ⟨.refl _, fun _ => le_rfl, fun _ _ _ h => h, fun _ _ _ h => h, fun _ _ => le_rfl⟩

theorem prefix_take_of_differ {p l g : List α} {k : Nat} {x y : α} (hl : p <+: l) (hg : p <+: g)
    (hx : l[k]? = some x) (hy : g[k]? = some y) (hne : x ≠ y) : p <+: l.take k := by
  refine List.prefix_take_iff.mpr ⟨hl, ?_⟩
  by_contra hlt
  have hk := List.getElem?_eq_getElem (l := p) (i := k) (by omega)
  have hsame : x = p[k] := Option.some.inj (hx.symm.trans (prefix_getElem? hl hk))
  exact hne (hsame.trans (Option.some.inj ((prefix_getElem? hg hk).symm.trans hy)))

theorem Inv.cut (h : Inv term members base s) {n : N} {k : Nat} {x y : α}
    (he : s.leaders.elected (s.current n)) (hx : (s.log n)[k]? = some x)
    (hy : (s.leaders.log (s.current n))[k]? = some y) (hne : x ≠ y) :
    Inv term members base (s.cut n k) := by
  have hpart : (s.log n).take k <+: s.log n := List.take_prefix _ _
  have hbase : base <+: (s.log n).take k :=
    prefix_take_of_differ (h.log_follows n).base_start (h.leader_follows _ he).base_start hx hy hne
  have atLog : ∀ {P : N → List α → Prop}, (∀ m, P m (s.log m)) →
      P n ((s.log n).take k) → ∀ m, P m ((s.cut n k).log m) := by
    intro P hold hthis m
    by_cases hm : m = n
    · subst hm; rw [cut_log_self]; exact hthis
    · rw [cut_log_of_ne hm]; exact hold m
  exact { h with
    log_follows := atLog (P := fun _ l => Follows term base s.leaders l) h.log_follows
      ((h.log_follows n).restrict hbase hpart)
    log_ordered := atLog (P := fun _ l => Ordered term base l) h.log_ordered
      fun i j x y hi hij hx hy => h.log_ordered n i j x y hi hij
        (prefix_getElem? hpart hx) (prefix_getElem? hpart hy)
    log_bounded := atLog (P := fun m l => Bounded term base l (s.current m)) h.log_bounded
      fun i x hi hx => h.log_bounded n i x hi (prefix_getElem? hpart hx)
    held := by
      intro m u hu
      by_cases hm : m = n
      · subst hm
        obtain rfl : s.current m = u := hu
        rw [cut_log_self]
        exact prefix_take_of_differ (h.held m _ rfl) (List.take_prefix _ _) hx hy hne
      · rw [cut_log_of_ne hm]
        exact h.held m u hu
    kept := by
      intro m u i ho hi
      by_cases hm : m = n
      · subst hm
        rw [cut_log_self]
        rcases h.kept m u i ho hi with hkept | hbl
        · -- the log of the leader holds it as well, unless it is blocked
          have hut := (h.adopted_le m u (Nat.zero_lt_of_lt hi)).2.1
          rcases Nat.eq_or_lt_of_le hut with rfl | hlt
          · exact .inl (prefix_take_of_differ hkept (List.take_prefix _ _) hx hy hne)
          · rcases h.later_leader u _ i hlt ho he with hlead | hbl
            · exact .inl (prefix_take_of_differ hkept hlead hx hy hne)
            · exact .inr hbl
        · exact .inr hbl
      · rw [cut_log_of_ne hm]
        exact h.kept m u i ho hi }

/-! ## Extending -/

theorem extend_log_self {n : N} {t : Nat} {x : α} :
    (s.extend n t x).log n = s.leaders.log t ++ [x] := by
  simp [extend]

theorem extend_log_of_ne {n m : N} {t : Nat} {x : α} (hm : m ≠ n) :
    (s.extend n t x).log m = s.log m := by
  simp [extend, Function.update_of_ne hm]

theorem extend_leader_self {n : N} {t : Nat} {x : α} :
    (s.extend n t x).leaders.log t = s.leaders.log t ++ [x] := by
  simp [extend]

theorem extend_leader_of_ne {n : N} {t u : Nat} {x : α} (hu : u ≠ t) :
    (s.extend n t x).leaders.log u = s.leaders.log u := by
  simp [extend, Function.update_of_ne hu]

theorem extend_adopted_self {n : N} {t : Nat} {x : α} :
    (s.extend n t x).adopted n t = (s.leaders.log t).length + 1 := by
  simp [extend]

theorem extend_adopted_of_ne {n m : N} {t u : Nat} {x : α} (h : ¬ (m = n ∧ u = t)) :
    (s.extend n t x).adopted m u = s.adopted m u := by
  simp only [extend, if_neg h]

theorem grows_extend (h : Inv term members base s) (n : N) (t : Nat) (x : α) :
    Grows s (s.extend n t x) where
  leaders := by
    intro u hu
    refine ⟨hu, ?_⟩
    by_cases hut : u = t
    · subst hut; rw [extend_leader_self]; exact List.prefix_append _ _
    · rw [extend_leader_of_ne hut]
  current := fun _ => le_rfl
  candidateLog := fun _ _ _ h => h
  ballot := fun _ _ _ h => h
  adopted := by
    intro m u
    by_cases hm : m = n ∧ u = t
    · obtain ⟨rfl, rfl⟩ := hm
      rw [extend_adopted_self]
      have := h.adopted_le_length m u
      omega
    · rw [extend_adopted_of_ne hm]

theorem Own.of_extend {n : N} {t u i : Nat} {x : α} (ho : (s.extend n t x).Own term base u i) :
    s.Own term base u i ∨ (u = t ∧ i = (s.leaders.log t).length) := by
  obtain ⟨he, hbi, y, hy, hyu⟩ := ho
  by_cases hut : u = t
  · subst hut
    rw [extend_leader_self] at hy
    rcases Nat.lt_or_ge i (s.leaders.log u).length with hi | hi
    · rw [List.getElem?_append_left hi] at hy
      exact .inl ⟨he, hbi, y, hy, hyu⟩
    · have := lt_length_of_getElem? hy
      simp only [List.length_append, List.length_singleton] at this
      exact .inr ⟨rfl, by omega⟩
  · rw [extend_leader_of_ne hut] at hy
    exact .inl ⟨he, hbi, y, hy, hyu⟩

theorem ordered_append {g : List α} {t : Nat} {x : α} (ho : Ordered term base g)
    (hb : Bounded term base g t) (hx : term x = t) : Ordered term base (g ++ [x]) := by
  intro i j y z hi hij hy hz
  have hj := lt_length_of_getElem? hz
  simp only [List.length_append, List.length_singleton] at hj
  rcases Nat.lt_or_ge j g.length with hjg | hjg
  · rw [List.getElem?_append_left hjg] at hz
    rw [List.getElem?_append_left (by omega)] at hy
    exact ho i j y z hi hij hy hz
  · obtain rfl : j = g.length := by omega
    obtain rfl : x = z := by simpa using hz
    rcases Nat.lt_or_ge i g.length with hig | hig
    · rw [List.getElem?_append_left hig] at hy
      exact hx ▸ hb i y hi hy
    · obtain rfl : i = g.length := by omega
      obtain rfl : x = y := by simpa using hy
      exact le_rfl

theorem bounded_append {g : List α} {t : Nat} {x : α} (hb : Bounded term base g t)
    (hx : term x = t) : Bounded term base (g ++ [x]) t := by
  intro i y hi hy
  rcases Nat.lt_or_ge i g.length with hig | hig
  · rw [List.getElem?_append_left hig] at hy
    exact hb i y hi hy
  · have := lt_length_of_getElem? hy
    simp only [List.length_append, List.length_singleton] at this
    obtain rfl : i = g.length := by omega
    obtain rfl : x = y := by simpa using hy
    exact hx.le

theorem Inv.extend (h : Inv term members base s) {n : N} {t : Nat} {x : α}
    (ht : s.current n = t) (he : s.leaders.elected t) (hlog : s.log n = s.leaders.log t)
    (hx : term x = t) : Inv term members base (s.extend n t x) := by
  have grows := grows_extend h n t x
  have blocked : ∀ u i, s.Blocked members u i → (s.extend n t x).Blocked members u i := by
    intro u i hb
    refine hb.mono grows.current fun m hm => extend_adopted_of_ne ?_
    rintro ⟨rfl, rfl⟩
    omega
  have hfollows : Follows term base (s.extend n t x).leaders (s.leaders.log t ++ [x]) := by
    refine ((h.leader_follows t he).mono grows.leaders).append (hx ▸ (grows.leaders t he).1) ?_
    rw [hx, extend_leader_self]
  have hordered := ordered_append (h.leader_ordered t he) (h.leader_bounded t he) hx
  have hbounded := bounded_append (h.leader_bounded t he) hx
  have atLog : ∀ {P : N → List α → Prop}, (∀ m, P m (s.log m)) →
      P n (s.leaders.log t ++ [x]) → ∀ m, P m ((s.extend n t x).log m) := by
    intro P hold hthis m
    by_cases hm : m = n
    · subst hm; rw [extend_log_self]; exact hthis
    · rw [extend_log_of_ne hm]; exact hold m
  have atLeader : ∀ {P : Nat → List α → Prop},
      (∀ u, s.leaders.elected u → P u (s.leaders.log u)) → P t (s.leaders.log t ++ [x]) →
      ∀ u, s.leaders.elected u → P u ((s.extend n t x).leaders.log u) := by
    intro P hold hthis u hu
    by_cases hut : u = t
    · subst hut; rw [extend_leader_self]; exact hthis
    · rw [extend_leader_of_ne hut]; exact hold u hu
  exact { h with
    log_follows := atLog (P := fun _ l => Follows term base (s.extend n t x).leaders l)
      (fun m => (h.log_follows m).mono grows.leaders) hfollows
    log_ordered := atLog (P := fun _ l => Ordered term base l) h.log_ordered hordered
    log_bounded := atLog (P := fun m l => Bounded term base l (s.current m)) h.log_bounded
      (ht ▸ hbounded)
    leader_follows := atLeader (P := fun _ l => Follows term base (s.extend n t x).leaders l)
      (fun u hu => (h.leader_follows u hu).mono grows.leaders) hfollows
    leader_ordered := atLeader (P := fun _ l => Ordered term base l) h.leader_ordered hordered
    leader_bounded := atLeader (P := fun u l => Bounded term base l u) h.leader_bounded hbounded
    candidate_follows := fun u c g hc => (h.candidate_follows u c g hc).mono grows.leaders
    adopted_le := by
      intro m u hm
      by_cases hmu : m = n ∧ u = t
      · obtain ⟨rfl, rfl⟩ := hmu
        refine ⟨he, ht.ge, ?_⟩
        rw [extend_adopted_self, extend_leader_self]
        simp
      · rw [extend_adopted_of_ne hmu] at hm ⊢
        obtain ⟨heu, hu, hl⟩ := h.adopted_le m u hm
        exact ⟨heu, hu, hl.trans (grows.leaders u heu).2.length_le⟩
    held := by
      intro m u hu
      by_cases hmu : m = n ∧ u = t
      · obtain ⟨rfl, rfl⟩ := hmu
        rw [extend_log_self, extend_leader_self]
        exact List.take_prefix _ _
      · have hheld := h.held m u hu
        rw [extend_adopted_of_ne hmu]
        have hlog : s.log m <+: (s.extend n t x).log m := by
          by_cases hm : m = n
          · subst hm; rw [extend_log_self, hlog]; exact List.prefix_append _ _
          · rw [extend_log_of_ne hm]
        by_cases hut : u = t
        · subst hut
          rw [extend_leader_self, List.take_append_of_le_length (h.adopted_le_length m u)]
          exact hheld.trans hlog
        · rw [extend_leader_of_ne hut]
          exact hheld.trans hlog
    later_leader := by
      intro u v i huv ho hv
      rcases ho.of_extend with hold | ⟨rfl, rfl⟩
      · rw [take_leader_mono grows hold.1 hold.lt_length]
        rcases h.later_leader u v i huv hold hv with hk | hbl
        · exact .inl (hk.trans (grows.leaders v hv).2)
        · exact .inr (blocked u i hbl)
      · -- the voters of a later leader have left the term and cannot adopt the new entry
        obtain ⟨c, Q, hQ, hvotes⟩ := h.elected_votes v hv
        refine .inr ⟨Q, hQ, fun m hm => ?_⟩
        have hmv := (h.ballot_term m v c (hvotes m hm)).1
        refine ⟨huv.trans_le hmv, ?_⟩
        rw [extend_adopted_of_ne (by rintro ⟨rfl, -⟩; omega)]
        exact h.adopted_le_length m u
    kept := by
      intro m u i ho hi
      by_cases hmu : m = n ∧ u = t
      · obtain ⟨rfl, rfl⟩ := hmu
        rw [extend_log_self, extend_leader_self]
        exact .inl (List.take_prefix _ _)
      · rw [extend_adopted_of_ne hmu] at hi
        rcases ho.of_extend with hold | ⟨rfl, rfl⟩
        · rw [take_leader_mono grows hold.1 hold.lt_length]
          rcases h.kept m u i hold hi with hk | hbl
          · refine .inl (hk.trans ?_)
            by_cases hm : m = n
            · subst hm; rw [extend_log_self, hlog]; exact List.prefix_append _ _
            · rw [extend_log_of_ne hm]
          · exact .inr (blocked u i hbl)
        · have := h.adopted_le_length m u
          omega
    voted_kept := by
      intro m u v c g i huv ho hi hb hc
      have hv := (h.ballot_term m v c hb).1
      rw [extend_adopted_of_ne (by rintro ⟨rfl, rfl⟩; omega)] at hi
      rcases ho.of_extend with hold | ⟨rfl, rfl⟩
      · rw [take_leader_mono grows hold.1 hold.lt_length]
        exact (h.voted_kept m u v c g i huv hold hi hb hc).imp_right (blocked u i)
      · have := h.adopted_le_length m u
        omega }

/-! ## Every step -/

theorem Step.inv (h : Inv term members base s) (hs : Step term members base s s') :
    Inv term members base s' := by
  cases hs with
  | raise n t ht => exact h.raise ht
  | campaign n t ht hb => exact h.campaign ht hb
  | vote n t c g ht hfree hc hg => exact h.vote ht hfree hc hg
  | elect t c g Q hc hQ hvotes hnew => exact h.elect hc hQ hvotes hnew
  | adopt n t k ht he hk hkeep => exact h.adopt ht he hk hkeep
  | extend n t x ht he hlog hx => exact h.extend ht he hlog hx

theorem Step.grows (h : Inv term members base s) (hs : Step term members base s s') :
    Grows s s' := by
  cases hs with
  | raise n t ht => exact grows_raise ht
  | campaign n t ht hb => exact grows_campaign h ht
  | vote n t c g => exact grows_addBallot s n t c
  | elect t c g Q hc hQ hvotes hnew => exact grows_elect hnew
  | adopt n t k => exact grows_adopt s n t k
  | extend n t x => exact grows_extend h n t x

end Draft.Consensus.Protocol
