import Draft.Consensus.Protocol

/-!
# Safety of the protocol

Every step keeps the invariant, and what was decided stays decided.  Two
decided lists are prefixes of one another, and the log of a leader contains
everything decided up to its term.
-/

namespace Draft.Consensus.Protocol

variable {N α : Type*} {term : α → Nat} {members : Finset N} {base : List α}
  {s s' : Protocol N α}

/-! ## The initial state -/

def start (base : List α) (current : N → Nat) : Protocol N α :=
  { current := current
    log := fun _ => base
    leaders := { elected := fun _ => False, log := fun _ => [] }
    candidateLog := fun _ _ => none
    ballot := fun _ _ _ => False
    adopted := fun _ _ => 0 }

theorem base_entry_absurd {P : Prop} {i : Nat} {x : α} (hi : base.length ≤ i)
    (hx : base[i]? = some x) : P :=
  absurd (lt_length_of_getElem? hx) (by omega)

theorem inv_start (current : N → Nat) : Inv term members base (start base current) where
  base_le := fun _ he => he.elim
  log_follows := fun _ => follows_base
  log_ordered := fun _ _ _ _ _ hi _ hx _ => base_entry_absurd hi hx
  log_bounded := fun _ _ _ hi hx => base_entry_absurd hi hx
  leader_follows := fun _ he => he.elim
  leader_ordered := fun _ he => he.elim
  leader_bounded := fun _ he => he.elim
  candidate_term := by simp [start]
  candidate_follows := by simp [start]
  candidate_ordered := by simp [start]
  candidate_below := by simp [start]
  ballot_term := fun _ _ _ hb => hb.elim
  ballot_unique := fun _ _ _ _ hb => hb.elim
  elected_votes := fun _ he => he.elim
  adopted_le := by simp [start]
  held := by simp [start]
  later_leader := fun _ _ _ _ ho => ho.1.elim
  kept := fun _ _ _ ho => ho.1.elim
  voted_kept := fun _ _ _ _ _ _ _ ho => ho.1.elim

/-! ## What a step leaves true -/

structure Grows (s s' : Protocol N α) : Prop where
  leaders : s.leaders.Grows s'.leaders
  current : ∀ n, s.current n ≤ s'.current n
  candidateLog : ∀ t c g, s.candidateLog t c = some g → s'.candidateLog t c = some g
  ballot : ∀ n t c, s.ballot n t c → s'.ballot n t c
  adopted : ∀ n t, s.adopted n t ≤ s'.adopted n t

theorem Grows.refl (s : Protocol N α) : Grows s s :=
  ⟨.refl _, fun _ => le_rfl, fun _ _ _ h => h, fun _ _ _ h => h, fun _ _ => le_rfl⟩

theorem Grows.trans {s₁ s₂ s₃ : Protocol N α} (h : Grows s₁ s₂) (k : Grows s₂ s₃) :
    Grows s₁ s₃ where
  leaders := h.leaders.trans k.leaders
  current := fun n => (h.current n).trans (k.current n)
  candidateLog := fun t c g hc => k.candidateLog t c g (h.candidateLog t c g hc)
  ballot := fun n t c hb => k.ballot n t c (h.ballot n t c hb)
  adopted := fun n t => (h.adopted n t).trans (k.adopted n t)

theorem Own.mono {t i : Nat} (ho : s.Own term base t i) (h : Grows s s') :
    s'.Own term base t i := by
  obtain ⟨he, hb, x, hx, hxt⟩ := ho
  exact ⟨(h.leaders t he).1, hb, x, prefix_getElem? (h.leaders t he).2 hx, hxt⟩

theorem Own.lt_length {t i : Nat} (ho : s.Own term base t i) :
    i < (s.leaders.log t).length := by
  obtain ⟨-, -, x, hx, -⟩ := ho
  exact lt_length_of_getElem? hx

theorem take_leader_mono (h : Grows s s') {t k : Nat} (he : s.leaders.elected t)
    (hk : k ≤ (s.leaders.log t).length) :
    (s'.leaders.log t).take k = (s.leaders.log t).take k :=
  prefix_take_eq (h.leaders t he).2 hk

theorem Decided.mono {t t' : Nat} {p : List α} (hd : s.Decided term members base t p)
    (h : Grows s s') (ht : t ≤ t') : s'.Decided term members base t' p := by
  rcases hd with hb | ⟨u, i, hu, ho, hp, Q, hQ, hacks⟩
  · exact .inl hb
  · refine .inr ⟨u, i, hu.trans ht, ho.mono h, ?_, Q, hQ, fun n hn => ?_⟩
    · rw [take_leader_mono h ho.1 ho.lt_length]
      exact hp
    · exact (hacks n hn).trans_le (h.adopted n u)

theorem Decided.restrict {t : Nat} {p q : List α} (hd : s.Decided term members base t q)
    (hp : p <+: q) : s.Decided term members base t p := by
  rcases hd with hb | ⟨u, i, hu, ho, hq, hQ⟩
  · exact .inl (hp.trans hb)
  · exact .inr ⟨u, i, hu, ho, hp.trans hq, hQ⟩

/-- A majority that decides and a majority that blocks would meet. -/
theorem not_blocked [DecidableEq N] {t i : Nat} {Q : Finset N} (hQ : IsMajority members Q)
    (hacks : ∀ n ∈ Q, i < s.adopted n t) : ¬ s.Blocked members t i := by
  rintro ⟨P, hP, hblock⟩
  obtain ⟨n, hnP, hnQ⟩ := hP.meet hQ
  have hle := (hblock n hnP).2
  have hlt := hacks n hnQ
  omega

/-- **Leader completeness**: a leader holds everything decided up to its term. -/
theorem Inv.decided_prefix_leader [DecidableEq N] (h : Inv term members base s) {t u : Nat}
    {p : List α} (hd : s.Decided term members base t p) (htu : t ≤ u) (he : s.leaders.elected u) :
    p <+: s.leaders.log u := by
  rcases hd with hb | ⟨v, i, hv, ho, hp, Q, hQ, hacks⟩
  · exact hb.trans (h.leader_follows u he).base_start
  · rcases Nat.eq_or_lt_of_le (hv.trans htu) with rfl | hlt
    · exact hp.trans (List.take_prefix _ _)
    · rcases h.later_leader v u i hlt ho he with hk | hblock
      · exact hp.trans hk
      · exact absurd hblock (not_blocked hQ hacks)

theorem Decided.base_or_leader {t : Nat} {p : List α}
    (hd : s.Decided term members base t p) :
    p <+: base ∨ ∃ u, s.leaders.elected u ∧ s.Decided term members base u p := by
  rcases hd with hb | ⟨u, i, -, ho, hp, hQ⟩
  · exact .inl hb
  · exact .inr ⟨u, ho.1, .inr ⟨u, i, le_rfl, ho, hp, hQ⟩⟩

/-- **Agreement**: of two decided lists one is a prefix of the other. -/
theorem Inv.decided_comparable [DecidableEq N] (h : Inv term members base s) {t u : Nat}
    {p q : List α} (hp : s.Decided term members base t p) (hq : s.Decided term members base u q) :
    p <+: q ∨ q <+: p := by
  rcases hp.base_or_leader with hpb | ⟨v, hv, hpv⟩ <;>
    rcases hq.base_or_leader with hqb | ⟨w, hw, hqw⟩
  · exact List.prefix_or_prefix_of_prefix hpb hqb
  · exact List.prefix_or_prefix_of_prefix
      (hpb.trans (h.leader_follows w hw).base_start) (h.decided_prefix_leader hqw le_rfl hw)
  · exact List.prefix_or_prefix_of_prefix
      (h.decided_prefix_leader hpv le_rfl hv) (hqb.trans (h.leader_follows v hv).base_start)
  · rcases Nat.le_total v w with hvw | hwv
    · exact List.prefix_or_prefix_of_prefix (h.decided_prefix_leader hpv hvw hw)
        (h.decided_prefix_leader hqw le_rfl hw)
    · exact List.prefix_or_prefix_of_prefix (h.decided_prefix_leader hpv le_rfl hv)
        (h.decided_prefix_leader hqw hwv hv)

/-! ## Deciding -/

theorem Inv.own_between (h : Inv term members base s) {t lo i hi : Nat} {x y : α}
    (he : s.leaders.elected t) (hlo : lo ≤ i) (hhi : i ≤ hi) (hb : base.length ≤ i)
    (hx : (s.leaders.log t)[lo]? = some x) (hxt : term x = t)
    (hy : (s.leaders.log t)[hi]? = some y) (hyt : term y = t) : s.Own term base t i := by
  have hlt := lt_length_of_getElem? hy
  obtain ⟨z, hz⟩ : ∃ z, (s.leaders.log t)[i]? = some z :=
    ⟨_, List.getElem?_eq_getElem (by omega)⟩
  have hzy : term z ≤ term y := h.leader_ordered t he i hi z y hb hhi hz hy
  have hxz : term x ≤ term z := by
    rcases Nat.lt_or_ge lo base.length with hlow | hhigh
    · -- the lower entry is part of the base, which no later entry is older than
      have hf := h.leader_follows t he
      have hxb : base[lo]? = some x := by
        rw [← List.getElem?_take_of_lt hlow, prefix_take_eq hf.base_start le_rfl,
          List.take_length] at hx
        exact hx
      exact h.base_le _ (hf.created i z hb hz).1 x (List.mem_of_getElem? hxb)
    · exact h.leader_ordered t he lo i x z hhigh hlo hx hz
  exact ⟨he, hb, z, hz, by omega⟩

theorem Inv.decided_of_sole (h : Inv term members base s) {n : N} (hn : IsMajority members {n})
    (hall : ∀ t, s.leaders.elected t → (s.leaders.log t).length ≤ s.adopted n t) :
    s.Decided term members base (s.current n) (s.log n) := by
  have hf := h.log_follows n
  rcases Nat.lt_or_ge base.length (s.log n).length with hlt | hge
  · obtain ⟨i, hi⟩ : ∃ i, (s.log n).length = i + 1 := ⟨(s.log n).length - 1, by omega⟩
    have hx := List.getElem?_eq_getElem (show i < (s.log n).length by omega)
    obtain ⟨he, hp⟩ := hf.created i _ (by omega) hx
    rw [← hi, List.take_length] at hp
    have hown : s.Own term base (term (s.log n)[i]) i :=
      ⟨he, by omega, _, prefix_getElem? hp hx, rfl⟩
    refine .inr ⟨_, i, h.log_bounded n i _ (by omega) hx, hown, ?_, {n}, hn, fun m hm => ?_⟩
    · exact List.prefix_take_iff.mpr ⟨hp, Nat.le_of_eq hi⟩
    · rw [Finset.mem_singleton.mp hm]
      exact hown.lt_length.trans_le (hall _ he)
  · exact .inl (hf.base_start.eq_of_length_le hge ▸ List.prefix_refl _)

/-! ## Bounds -/

theorem Inv.adopted_le_length (h : Inv term members base s) (n : N) (t : Nat) :
    s.adopted n t ≤ (s.leaders.log t).length := by
  rcases Nat.eq_zero_or_pos (s.adopted n t) with h0 | h0
  · exact h0 ▸ Nat.zero_le _
  · exact (h.adopted_le n t h0).2.2

theorem Inv.base_le_of_keep (h : Inv term members base s) {n : N} {t k : Nat}
    (he : s.leaders.elected t)
    (hkeep : (s.leaders.log t).take k <+: s.log n → (s.log n).length ≤ k) :
    base.length ≤ k := by
  by_contra hlt
  have hlog := (h.log_follows n).base_start
  have htake : (s.leaders.log t).take k = (s.log n).take k := by
    rw [prefix_take_eq (h.leader_follows t he).base_start (by omega),
      prefix_take_eq hlog (by omega)]
  have := hkeep (htake ▸ List.take_prefix _ _)
  have := hlog.length_le
  omega

/-! ## Raising a term -/

theorem grows_raise [DecidableEq N] {n : N} {t : Nat} (ht : s.current n ≤ t) :
    Grows s (s.raise n t) where
  leaders := .refl _
  current := by
    intro m
    by_cases hm : m = n
    · subst hm; simpa [raise] using ht
    · simp [raise, Function.update_of_ne hm]
  candidateLog := fun _ _ _ h => h
  ballot := fun _ _ _ h => h
  adopted := fun _ _ => le_rfl

theorem Blocked.mono {t i : Nat} (hb : s.Blocked members t i)
    (hcurrent : ∀ n, s.current n ≤ s'.current n)
    (hadopted : ∀ n, t < s.current n → s'.adopted n t = s.adopted n t) :
    s'.Blocked members t i := by
  obtain ⟨Q, hQ, hblock⟩ := hb
  refine ⟨Q, hQ, fun n hn => ?_⟩
  obtain ⟨hlt, hle⟩ := hblock n hn
  exact ⟨hlt.trans_le (hcurrent n), (hadopted n hlt).trans_le hle⟩

theorem Inv.held_of_le (h : Inv term members base s) {n : N} {t : Nat} (ht : s.current n ≤ t) :
    (s.leaders.log t).take (s.adopted n t) <+: s.log n := by
  rcases Nat.eq_zero_or_pos (s.adopted n t) with h0 | h0
  · rw [h0, List.take_zero]
    exact List.nil_prefix
  · exact h.held n t (ht.antisymm (h.adopted_le n t h0).2.1)

theorem Inv.raise [DecidableEq N] (h : Inv term members base s) {n : N} {t : Nat}
    (ht : s.current n ≤ t) : Inv term members base (s.raise n t) := by
  have grows := grows_raise ht
  have blocked : ∀ u i, s.Blocked members u i → (s.raise n t).Blocked members u i :=
    fun u i hb => hb.mono grows.current fun _ _ => rfl
  exact { h with
    log_bounded := fun m i x hi hx => (h.log_bounded m i x hi hx).trans (grows.current m)
    candidate_term := fun u c g hc =>
      ⟨(h.candidate_term u c g hc).1.trans (grows.current c), (h.candidate_term u c g hc).2⟩
    ballot_term := fun m u c hb =>
      ⟨(h.ballot_term m u c hb).1.trans (grows.current m), (h.ballot_term m u c hb).2⟩
    adopted_le := fun m u hm =>
      let ⟨he, hu, hl⟩ := h.adopted_le m u hm
      ⟨he, hu.trans (grows.current m), hl⟩
    held := fun m u hu => h.held_of_le (hu ▸ grows.current m)
    later_leader := fun u v i huv ho hv => (h.later_leader u v i huv ho hv).imp_right (blocked u i)
    kept := fun m u i ho hi => (h.kept m u i ho hi).imp_right (blocked u i)
    voted_kept := fun m u v c g i huv ho hi hb hc =>
      (h.voted_kept m u v c g i huv ho hi hb hc).imp_right (blocked u i) }

/-! ## Candidates and votes -/

theorem grows_campaign [DecidableEq N] (h : Inv term members base s) {n : N} {t : Nat}
    (ht : s.current n < t) : Grows s (s.campaign n t) where
  leaders := .refl _
  current := (grows_raise ht.le).current
  candidateLog := by
    intro u c g hc
    by_cases hu : u = t
    · subst hu
      by_cases hcn : c = n
      · subst hcn
        have := (h.candidate_term u c g hc).1
        omega
      · simpa [campaign, Function.update_of_ne hcn] using hc
    · simpa [campaign, Function.update_of_ne hu] using hc
  ballot := fun _ _ _ hb => .inl hb
  adopted := fun _ _ => le_rfl

theorem campaign_candidateLog [DecidableEq N] {n c : N} {t u : Nat} {g : List α}
    (hc : (s.campaign n t).candidateLog u c = some g) :
    s.candidateLog u c = some g ∨ (u = t ∧ c = n ∧ g = s.log n) := by
  by_cases hu : u = t
  · subst hu
    by_cases hcn : c = n
    · subst hcn
      simp only [campaign, Function.update_self, Option.some.injEq] at hc
      exact .inr ⟨rfl, rfl, hc.symm⟩
    · simp only [campaign, Function.update_self, Function.update_of_ne hcn] at hc
      exact .inl hc
  · simp only [campaign, Function.update_of_ne hu] at hc
    exact .inl hc

theorem Inv.campaign [DecidableEq N] (h : Inv term members base s) {n : N} {t : Nat}
    (ht : s.current n < t) (hb : ∀ x ∈ base, term x ≤ t) : Inv term members base (s.campaign n t) := by
  have grows := grows_campaign h ht
  have blocked : ∀ u i, s.Blocked members u i → (s.campaign n t).Blocked members u i :=
    fun u i hbl => hbl.mono grows.current fun _ _ => rfl
  have current : (s.campaign n t).current n = t := by simp [Protocol.campaign]
  exact { h with
    log_bounded := fun m i x hi hx => (h.log_bounded m i x hi hx).trans (grows.current m)
    candidate_term := by
      intro u c g hc
      rcases campaign_candidateLog hc with hc | ⟨rfl, rfl, -⟩
      · exact ⟨(h.candidate_term u c g hc).1.trans (grows.current c), (h.candidate_term u c g hc).2⟩
      · exact ⟨current.ge, hb⟩
    candidate_follows := by
      intro u c g hc
      rcases campaign_candidateLog hc with hc | ⟨-, -, rfl⟩
      · exact h.candidate_follows u c g hc
      · exact h.log_follows n
    candidate_ordered := by
      intro u c g hc
      rcases campaign_candidateLog hc with hc | ⟨-, -, rfl⟩
      · exact h.candidate_ordered u c g hc
      · exact h.log_ordered n
    candidate_below := by
      intro u c g hc i x hi hx
      rcases campaign_candidateLog hc with hc | ⟨rfl, -, rfl⟩
      · exact h.candidate_below u c g hc i x hi hx
      · exact (h.log_bounded n i x hi hx).trans_lt ht
    ballot_term := by
      rintro m u c (hv | ⟨rfl, rfl, rfl⟩)
      · obtain ⟨hu, g, hg⟩ := h.ballot_term m u c hv
        exact ⟨hu.trans (grows.current m), g, grows.candidateLog u c g hg⟩
      · exact ⟨current.ge, s.log c, by simp [Protocol.campaign]⟩
    ballot_unique := by
      intro m u c d hv hw
      rcases hv with hv | ⟨hm, hu, hc⟩ <;> rcases hw with hw | ⟨hm', hu', hd⟩
      · exact h.ballot_unique m u c d hv hw
      · have := (h.ballot_term m u c hv).1
        subst hm' hu'
        omega
      · have := (h.ballot_term m u d hw).1
        subst hm hu
        omega
      · rw [hc, hd]
    elected_votes := by
      intro u he
      obtain ⟨c, Q, hQ, hvotes⟩ := h.elected_votes u he
      exact ⟨c, Q, hQ, fun m hm => .inl (hvotes m hm)⟩
    adopted_le := fun m u hm =>
      let ⟨he, hu, hl⟩ := h.adopted_le m u hm
      ⟨he, hu.trans (grows.current m), hl⟩
    held := fun m u hu => h.held_of_le (hu ▸ grows.current m)
    later_leader := fun u v i huv ho hv => (h.later_leader u v i huv ho hv).imp_right (blocked u i)
    kept := fun m u i ho hi => (h.kept m u i ho hi).imp_right (blocked u i)
    voted_kept := by
      intro m u v c g i huv ho hi hv hc
      rcases hv with hv | ⟨hm, hvt, hcn⟩
      · rcases campaign_candidateLog hc with hc | ⟨rfl, rfl, -⟩
        · exact (h.voted_kept m u v c g i huv ho hi hv hc).imp_right (blocked u i)
        · obtain ⟨-, g', hg'⟩ := h.ballot_term m v c hv
          have := (h.candidate_term v c g' hg').1
          omega
      · -- a candidate's vote for itself: its log is the one that kept the entry
        have hg : g = s.log n := by
          rcases campaign_candidateLog hc with hc | ⟨-, -, hg⟩
          · have := (h.candidate_term v c g hc).1
            subst hcn hvt
            omega
          · exact hg
        rw [hg, ← hm]
        exact (h.kept m u i ho hi).imp_right fun hbl => hm ▸ blocked u i hbl }

/-- A candidate at least as up to date as a voter holds what the voter kept. -/
theorem Inv.carry (h : Inv term members base s) {n : N} {t i : Nat} {g : List α}
    (ho : s.Own term base t i) (hg : Follows term base s.leaders g)
    (hup : UpToDate term g (s.log n)) (hkept : (s.leaders.log t).take (i + 1) <+: s.log n) :
    (s.leaders.log t).take (i + 1) <+: g ∨ s.Blocked members t i := by
  obtain ⟨he, hbi, x, hx, hxt⟩ := ho
  have hit := lt_length_of_getElem? hx
  have hlen : ((s.leaders.log t).take (i + 1)).length = i + 1 := by
    rw [List.length_take]
    omega
  have hin : i + 1 ≤ (s.log n).length := hlen ▸ hkept.length_le
  -- the last entry of the voter is not older than the entry it kept
  have hxn : (s.log n)[i]? = some x :=
    prefix_getElem? hkept (by rw [List.getElem?_take_of_lt (by omega)]; exact hx)
  obtain ⟨y, hy⟩ : ∃ y, (s.log n)[(s.log n).length - 1]? = some y :=
    ⟨_, List.getElem?_eq_getElem (by omega)⟩
  have hty : t ≤ term y := hxt ▸ h.log_ordered n i _ x y hbi (by omega) hxn hy
  obtain ⟨z, hz, hcmp⟩ := hup y (by rw [List.getLast?_eq_getElem?]; exact hy)
  rw [List.getLast?_eq_getElem?] at hz
  have hgl := lt_length_of_getElem? hz
  rcases Nat.lt_or_ge (g.length - 1) base.length with hbase | hbase
  · -- the candidate holds nothing above the base, which is too old or too short
    have hzb : z ∈ base := by
      have hg' : g = base := by
        refine (hg.base_start.eq_of_length_le ?_).symm
        omega
      exact List.mem_of_getElem? (hg' ▸ hz)
    have := h.base_le t he z hzb
    omega
  · obtain ⟨hez, hpz⟩ := hg.created _ z hbase hz
    rw [List.take_of_length_le (by omega)] at hpz
    rcases Nat.eq_or_lt_of_le (show t ≤ term z by omega) with htz | htz
    · refine .inl (List.prefix_of_prefix_length_le (List.take_prefix _ _) (htz ▸ hpz) ?_)
      omega
    · rcases h.later_leader t (term z) i htz ⟨he, hbi, x, hx, hxt⟩ hez with hk | hbl
      · refine .inl (List.prefix_of_prefix_length_le hk hpz ?_)
        by_contra hshort
        -- otherwise the candidate's last entry would stand below the older one
        have hxz : (s.leaders.log (term z))[i]? = some x :=
          prefix_getElem? hk (by rw [List.getElem?_take_of_lt (by omega)]; exact hx)
        have := h.leader_ordered _ hez _ i z x hbase (by omega) (prefix_getElem? hpz hz) hxz
        omega
      · exact .inr hbl

theorem grows_addBallot (s : Protocol N α) (n : N) (t : Nat) (c : N) :
    Grows s (s.addBallot n t c) :=
  ⟨.refl _, fun _ => le_rfl, fun _ _ _ h => h, fun _ _ _ h => .inl h, fun _ _ => le_rfl⟩

theorem Inv.vote (h : Inv term members base s) {n c : N} {t : Nat} {g : List α}
    (ht : s.current n = t) (hfree : ∀ d, s.ballot n t d → d = c)
    (hc : s.candidateLog t c = some g) (hg : UpToDate term g (s.log n)) :
    Inv term members base (s.addBallot n t c) :=
  { h with
    ballot_term := by
      rintro m u d (hv | ⟨rfl, rfl, rfl⟩)
      · exact h.ballot_term m u d hv
      · exact ⟨ht.ge, g, hc⟩
    ballot_unique := by
      rintro m u d d' (hv | ⟨rfl, rfl, rfl⟩) (hw | ⟨h₁, h₂, rfl⟩)
      · exact h.ballot_unique m u d d' hv hw
      · subst h₁ h₂; exact hfree d hv
      · exact (hfree d' hw).symm
      · rfl
    elected_votes := by
      intro u he
      obtain ⟨d, Q, hQ, hvotes⟩ := h.elected_votes u he
      exact ⟨d, Q, hQ, fun m hm => .inl (hvotes m hm)⟩
    voted_kept := by
      rintro m u v d g' i huv ho hi (hv | ⟨rfl, rfl, rfl⟩) hd
      · exact h.voted_kept m u v d g' i huv ho hi hv hd
      · obtain rfl : g = g' := Option.some.inj (hc.symm.trans hd)
        rcases h.kept m u i ho hi with hk | hbl
        · exact h.carry ho (h.candidate_follows _ _ _ hc) hg hk
        · exact .inr hbl }

/-! ## Elections -/

theorem elect_log_of_ne {t u : Nat} {g : List α} (hu : u ≠ t) :
    (s.elect t g).leaders.log u = s.leaders.log u := by
  simp [elect, Function.update_of_ne hu]

theorem elect_log_self {t : Nat} {g : List α} : (s.elect t g).leaders.log t = g := by
  simp [elect]

theorem grows_elect {t : Nat} {g : List α} (hnew : ¬ s.leaders.elected t) :
    Grows s (s.elect t g) where
  leaders := by
    intro u hu
    have hne : u ≠ t := fun h => hnew (h ▸ hu)
    exact ⟨.inl hu, by rw [elect_log_of_ne hne]⟩
  current := fun _ => le_rfl
  candidateLog := fun _ _ _ h => h
  ballot := fun _ _ _ h => h
  adopted := fun _ _ => le_rfl

theorem Own.of_elect (h : Inv term members base s) {c : N} {t u i : Nat} {g : List α}
    (hc : s.candidateLog t c = some g) (ho : (s.elect t g).Own term base u i) :
    u ≠ t ∧ s.Own term base u i := by
  obtain ⟨he, hbi, x, hx, hxu⟩ := ho
  by_cases hu : u = t
  · subst hu
    rw [elect_log_self] at hx
    have := h.candidate_below u c g hc i x hbi hx
    omega
  · rw [elect_log_of_ne hu] at hx
    exact ⟨hu, he.resolve_right hu, hbi, x, hx, hxu⟩

theorem Inv.elect [DecidableEq N] (h : Inv term members base s) {c : N} {t : Nat} {g : List α}
    {Q : Finset N}
    (hc : s.candidateLog t c = some g) (hQ : IsMajority members Q)
    (hvotes : ∀ n ∈ Q, s.ballot n t c) (hnew : ¬ s.leaders.elected t) :
    Inv term members base (s.elect t g) := by
  have grows := grows_elect (g := g) hnew
  have atLeader : ∀ {P : Nat → List α → Prop}, (∀ u, s.leaders.elected u → P u (s.leaders.log u)) →
      P t g → ∀ u, (s.elect t g).leaders.elected u → P u ((s.elect t g).leaders.log u) := by
    intro P hold hthis u hu
    by_cases hut : u = t
    · subst hut; rw [elect_log_self]; exact hthis
    · rw [elect_log_of_ne hut]; exact hold u (hu.resolve_right hut)
  exact
    { base_le := fun u hu =>
        hu.elim (h.base_le u) fun hut => hut ▸ (h.candidate_term t c g hc).2
      log_follows := fun n => (h.log_follows n).mono grows.leaders
      log_ordered := h.log_ordered
      log_bounded := h.log_bounded
      leader_follows := atLeader (P := fun _ l => Follows term base (s.elect t g).leaders l)
        (fun u hu => (h.leader_follows u hu).mono grows.leaders)
        ((h.candidate_follows t c g hc).mono grows.leaders)
      leader_ordered := atLeader (P := fun _ l => Ordered term base l) h.leader_ordered
        (h.candidate_ordered t c g hc)
      leader_bounded := atLeader (P := fun u l => Bounded term base l u) h.leader_bounded
        fun i x hi hx => (h.candidate_below t c g hc i x hi hx).le
      candidate_term := h.candidate_term
      candidate_follows := fun u d g' hd => (h.candidate_follows u d g' hd).mono grows.leaders
      candidate_ordered := h.candidate_ordered
      candidate_below := h.candidate_below
      ballot_term := h.ballot_term
      ballot_unique := h.ballot_unique
      elected_votes := fun u hu => hu.elim (h.elected_votes u) fun hut => ⟨c, Q, hQ, hut ▸ hvotes⟩
      adopted_le := by
        intro n u hn
        obtain ⟨he, hu, hl⟩ := h.adopted_le n u hn
        exact ⟨.inl he, hu, hl.trans (grows.leaders u he).2.length_le⟩
      held := by
        intro n u hu
        by_cases hut : u = t
        · subst hut
          rcases Nat.eq_zero_or_pos (s.adopted n u) with h0 | h0
          · rw [show (s.elect u g).adopted n u = 0 from h0, List.take_zero]
            exact List.nil_prefix
          · exact absurd (h.adopted_le n u h0).1 hnew
        · rw [elect_log_of_ne hut]
          exact h.held n u hu
      later_leader := by
        intro u v i huv ho hv
        obtain ⟨hut, hold⟩ := Own.of_elect h hc ho
        rw [elect_log_of_ne hut]
        by_cases hvt : v = t
        · subst hvt
          rw [elect_log_self]
          by_cases hsome : ∃ n ∈ Q, i < s.adopted n u
          · obtain ⟨n, hn, hin⟩ := hsome
            exact h.voted_kept n u v c g i huv hold hin (hvotes n hn) hc
          · -- none of the voters adopted the entry, and none of them can any more
            push Not at hsome
            exact .inr ⟨Q, hQ, fun n hn =>
              ⟨huv.trans_le (h.ballot_term n v c (hvotes n hn)).1, hsome n hn⟩⟩
        · rw [elect_log_of_ne hvt]
          exact h.later_leader u v i huv hold (hv.resolve_right hvt)
      kept := by
        intro n u i ho hi
        obtain ⟨hut, ho⟩ := Own.of_elect h hc ho
        rw [elect_log_of_ne hut]
        exact h.kept n u i ho hi
      voted_kept := by
        intro n u v d g' i huv ho hi hb hd
        obtain ⟨hut, ho⟩ := Own.of_elect h hc ho
        rw [elect_log_of_ne hut]
        exact h.voted_kept n u v d g' i huv ho hi hb hd }

end Draft.Consensus.Protocol
