import Mathlib.Data.Set.Insert

/-!
# Objects that are cited, and their collection under a grace

Whoever puts an object to have it cited later holds a ticket for it, and may redeem it while the
object is younger than the grace. A collector may not delete a cited object, nor one whose ticket
can still be redeemed; then nothing collected is ever cited again (`Sound.collected`).

The collector judges by citations `D` that it read before. This is enough as long as what is cited
and not in `D` has never been retired (`Covered D`), or was put less than the grace before `now`
(`Recent grace now D`).
-/

structure GraceStore (H P : Type) where
  time : ℕ
  objects : H → Option ℕ
  cited : Set H
  retired : Set H
  collected : Set H
  known : Set H
  ticket : P → Option (H × ℕ)

namespace GraceStore

open Function Option

variable {H P : Type}

def cite (S : GraceStore H P) (D : Set H) : GraceStore H P :=
  { S with cited := D, retired := S.cited \ D ∪ S.retired }

/-- The name is, or has been, of an object or of something said about one. -/
def InUse (S : GraceStore H P) (h : H) : Prop :=
  (S.objects h).isSome ∨ h ∈ S.cited ∨ h ∈ S.retired ∨ h ∈ S.collected ∨
    ∃ x t, S.ticket x = some (h, t)

theorem InUse.of_ticket {S : GraceStore H P} {h : H} {x : P} {t : ℕ}
    (hx : S.ticket x = some (h, t)) : S.InUse h := .inr (.inr (.inr (.inr ⟨x, t, hx⟩)))

theorem InUse.of_tickets {S : GraceStore H P} {f : P → Option (H × ℕ)} {h : H}
    (huse : InUse { S with ticket := f } h) : S.InUse h ∨ ∃ x t, f x = some (h, t) := by
  unfold InUse at *
  grind

structure Valid (grace : ℕ) (S : GraceStore H P) (h : H) (t : ℕ) : Prop where
  le_time : t ≤ S.time
  uncited : h ∉ S.cited
  unretired : h ∉ S.retired
  /-- The object is there, until the ticket expires. -/
  there : S.objects h = some t ∨ t + grace ≤ S.time

structure Sound (grace : ℕ) (S : GraceStore H P) : Prop where
  known : ∀ h, S.InUse h → h ∈ S.known
  valid : ∀ x h t, S.ticket x = some (h, t) → Valid grace S h t
  distinct : ∀ x y h t u, S.ticket x = some (h, t) → S.ticket y = some (h, u) → x = y
  collected : ∀ h ∈ S.collected, S.objects h = none ∧ h ∉ S.cited

variable {grace : ℕ} {S S' : GraceStore H P}

theorem Sound.tick (hS : S.Sound grace) :
    ({ S with time := S.time + 1 } : GraceStore H P).Sound grace := by
  refine ⟨hS.known, fun x h t hx => ?_, hS.distinct, hS.collected⟩
  have hval := hS.valid x h t hx
  exact ⟨Nat.le_succ_of_le hval.le_time, hval.uncited, hval.unretired,
    hval.there.imp_right Nat.le_succ_of_le⟩

variable {D : Set H}

/-- New citations may add what was not collected and has no ticket. -/
theorem Sound.cite (hS : S.Sound grace)
    (hD : ∀ h ∈ D, h ∈ S.cited ∨ h ∈ S.known ∧ h ∉ S.collected ∧ ∀ x t, S.ticket x ≠ some (h, t)) :
    (S.cite D).Sound grace := by
  refine ⟨?_, ?_, hS.distinct, ?_⟩
  · rintro g (hg | hg | hg | hg)
    · exact hS.known g (.inl hg)
    · rcases hD g hg with hg | ⟨hkn, -⟩
      · exact hS.known g (.inr (.inl hg))
      · exact hkn
    · rcases hg with hg | hg
      · exact hS.known g (.inr (.inl hg.1))
      · exact hS.known g (.inr (.inr (.inl hg)))
    · exact hS.known g (.inr (.inr (.inr hg)))
  · intro x g t hx
    have hval := hS.valid x g t hx
    refine ⟨hval.le_time, fun hg => ?_, ?_, hval.there⟩
    · rcases hD g hg with hg | ⟨-, -, htk⟩
      · exact hval.uncited hg
      · exact htk x t hx
    · rintro (hg | hg)
      · exact hval.uncited hg.1
      · exact hval.unretired hg
  · intro g hg
    refine ⟨(hS.collected g hg).1, fun hmem => ?_⟩
    rcases hD g hmem with hmem | ⟨-, hcoll, -⟩
    · exact (hS.collected g hg).2 hmem
    · exact hcoll hg

variable {x : P} {h : H} {t : ℕ}

theorem Sound.there (hS : S.Sound grace) (hx : S.ticket x = some (h, t))
    (htm : S.time < t + grace) : S.objects h = some t :=
  (hS.valid x h t hx).there.resolve_right (Nat.not_le_of_lt htm)

theorem Sound.not_collected (hS : S.Sound grace) (hth : (S.objects h).isSome) :
    h ∉ S.collected := by
  intro hmem
  rw [(hS.collected h hmem).1] at hth
  cases hth

theorem Sound.install (hS : S.Sound grace)
    (hD : ∀ h ∈ D, h ∈ S.cited ∨ (S.objects h).isSome ∧ ∀ x t, S.ticket x ≠ some (h, t)) :
    (S.cite D).Sound grace := by
  refine hS.cite fun h hh => (hD h hh).imp_right fun ⟨hth, htk⟩ => ?_
  exact ⟨hS.known h (.inl hth), hS.not_collected hth, htk⟩

/-! ### Collecting by citations that were read before -/

/-- What is cited and not in `D` is there, and has never been retired. -/
def Covered (D : Set H) (S : GraceStore H P) : Prop :=
  ∀ h ∈ S.cited, h ∈ D ∨ h ∉ S.retired ∧ (S.objects h).isSome

def Recent (grace now : ℕ) (D : Set H) (S : GraceStore H P) : Prop :=
  ∀ h ∈ S.cited, h ∈ D ∨ ∃ m, S.objects h = some m ∧ now - m < grace

/-- What was listed is there as it was, or it has been collected. -/
def Listed (objects : H → Option ℕ) (S : GraceStore H P) : Prop :=
  ∀ h m, objects h = some m → S.objects h = some m ∨ h ∈ S.collected

theorem Covered.cite {E : Set H} (hcov : S.Covered D)
    (hE : ∀ h ∈ E, h ∈ S.cited ∨ h ∉ S.retired ∧ (S.objects h).isSome) : (S.cite E).Covered D := by
  intro h hh
  have hnew : h ∈ D ∨ h ∉ S.retired ∧ (S.objects h).isSome := by
    rcases hE h hh with hcit | hfr
    · exact hcov h hcit
    · exact .inr hfr
  refine hnew.imp_right fun ⟨hret, hth⟩ => ⟨?_, hth⟩
  rintro (hdrp | hmem)
  · exact hdrp.2 hh
  · exact hret hmem

variable {now : ℕ}

theorem Recent.cite {E : Set H} (hrcn : S.Recent grace now D)
    (hE : ∀ h ∈ E, h ∈ S.cited ∨ ∃ m, S.objects h = some m ∧ now - m < grace) :
    (S.cite E).Recent grace now D := by
  intro h hh
  rcases hE h hh with hcit | hyng
  · exact hrcn h hcit
  · exact .inr hyng

theorem Covered.recent (hcov : S.Covered D)
    (hyng : ∀ h ∈ S.cited, h ∈ D ∨ ∀ m ∈ S.objects h, now - m < grace) :
    S.Recent grace now D := by
  intro h hh
  rcases hcov h hh with hD | ⟨-, hth⟩
  · exact .inl hD
  · obtain ⟨m, hm⟩ := isSome_iff_exists.mp hth
    exact (hyng h hh).imp_right fun hall => ⟨m, hm, hall m hm⟩

theorem Covered.retired_not_cited (hcov : S.Covered D) (hD : h ∉ D) (hret : h ∈ S.retired) :
    h ∉ S.cited := by
  intro hcit
  rcases hcov h hcit with hin | ⟨hnot, -⟩
  · exact hD hin
  · exact hnot hret

variable {objects : H → Option ℕ}

theorem Recent.old_not_cited {m : ℕ} (hrcn : S.Recent grace now D) (hlis : S.Listed objects)
    (hS : S.Sound grace) (hD : h ∉ D) (hm : objects h = some m) (hold : grace ≤ now - m) :
    h ∉ S.cited := by
  intro hcit
  obtain ⟨u, hu, hyng⟩ := (hrcn h hcit).resolve_left hD
  rcases hlis h m hm with hth | hgo
  · obtain rfl : u = m := mem_unique hu hth
    exact Nat.not_lt_of_le hold hyng
  · exact (hS.collected h hgo).2 hcit

theorem Listed.expired {m : ℕ} (hlis : S.Listed objects) (hS : S.Sound grace)
    (hnow : now ≤ S.time) (hm : objects h = some m) (hold : grace ≤ now - m)
    (hx : S.ticket x = some (h, t)) : t + grace ≤ S.time := by
  have hval := hS.valid x h t hx
  rcases hval.there with hth | hexp
  · rcases hlis h m hm with hsm | hgo
    · obtain rfl : t = m := mem_unique hth hsm
      have hle : t ≤ S.time := hval.le_time
      omega
    · exact absurd ((hS.collected h hgo).1.symm.trans hth) (by simp)
  · exact hexp

/-! ### The tickets -/

section Tickets

variable [DecidableEq P]

def release (S : GraceStore H P) (x : P) : GraceStore H P :=
  { S with ticket := update S.ticket x none }

theorem ticket_release {y : P} {e : H × ℕ} (hy : (S.release x).ticket y = some e) :
    y ≠ x ∧ S.ticket y = some e := by
  change update S.ticket x none y = some e at hy
  rw [update_apply] at hy
  split at hy
  · cases hy
  · next hyx => exact ⟨hyx, hy⟩

theorem Sound.release (hS : S.Sound grace) (x : P) : (S.release x).Sound grace := by
  refine ⟨?_, ?_, ?_, hS.collected⟩
  · intro g hg
    rcases hg.of_tickets with hg | ⟨y, t, hy⟩
    · exact hS.known g hg
    · exact hS.known g (.of_ticket (ticket_release hy).2)
  · exact fun y g t hy => { hS.valid y g t (ticket_release hy).2 with }
  · intro y z g t u hy hz
    exact hS.distinct y z g t u (ticket_release hy).2 (ticket_release hz).2

theorem Sound.redeem (hS : S.Sound grace) (hx : S.ticket x = some (h, t))
    (htm : S.time < t + grace) (hD : D ⊆ insert h S.cited) :
    ((S.release x).cite D).Sound grace := by
  refine (hS.release x).cite fun g hg => ?_
  rcases hD hg with rfl | hg
  · refine .inr ⟨hS.known g (.of_ticket hx), ?_, ?_⟩
    · exact hS.not_collected (isSome_of_eq_some (hS.there hx htm))
    · intro y u hy
      obtain ⟨hyx, hy⟩ := ticket_release hy
      exact hyx (hS.distinct y x g u t hy hx)
  · exact .inl hg

end Tickets

/-! ### The objects -/

variable [DecidableEq H]

def put (S : GraceStore H P) (h : H) : GraceStore H P :=
  { S with objects := update S.objects h (some S.time), known := insert h S.known }

def collect (S : GraceStore H P) (h : H) : GraceStore H P :=
  { S with objects := update S.objects h none, collected := insert h S.collected }

theorem objects_put_self : (S.put h).objects h = some S.time := update_self h _ _

variable {g : H}

theorem objects_put_of_ne (hgh : g ≠ h) : (S.put h).objects g = S.objects g := update_of_ne hgh _ _

theorem objects_collect_self : (S.collect h).objects h = none := update_self h _ _

theorem objects_collect_of_ne (hgh : g ≠ h) : (S.collect h).objects g = S.objects g :=
  update_of_ne hgh _ _

theorem Sound.put (hS : S.Sound grace) (hcoll : h ∉ S.collected)
    (htk : ∀ x t, S.ticket x ≠ some (h, t)) : (S.put h).Sound grace := by
  refine ⟨?_, ?_, hS.distinct, ?_⟩
  · intro g hg
    by_cases hgh : g = h
    · exact .inl hgh
    · refine .inr (hS.known g ?_)
      rcases hg with hg | hg
      · rw [objects_put_of_ne hgh] at hg
        exact .inl hg
      · exact .inr hg
  · intro x g t hx
    have hval := hS.valid x g t hx
    have hgh : g ≠ h := by
      rintro rfl
      exact htk x t hx
    refine ⟨hval.le_time, hval.uncited, hval.unretired, ?_⟩
    rw [objects_put_of_ne hgh]
    exact hval.there
  · intro g hg
    have hgh : g ≠ h := by
      rintro rfl
      exact hcoll hg
    rw [objects_put_of_ne hgh]
    exact hS.collected g hg

theorem Sound.collect (hS : S.Sound grace) (hkn : h ∈ S.known) (hcit : h ∉ S.cited)
    (hexp : ∀ x t, S.ticket x = some (h, t) → t + grace ≤ S.time) :
    (S.collect h).Sound grace := by
  refine ⟨?_, ?_, hS.distinct, ?_⟩
  · rintro g (hg | hg | hg | hg | hg)
    · by_cases hgh : g = h
      · subst hgh
        rw [objects_collect_self] at hg
        cases hg
      · rw [objects_collect_of_ne hgh] at hg
        exact hS.known g (.inl hg)
    · exact hS.known g (.inr (.inl hg))
    · exact hS.known g (.inr (.inr (.inl hg)))
    · rcases hg with rfl | hg
      · exact hkn
      · exact hS.known g (.inr (.inr (.inr (.inl hg))))
    · exact hS.known g (.inr (.inr (.inr (.inr hg))))
  · intro x g t hx
    have hval := hS.valid x g t hx
    refine ⟨hval.le_time, hval.uncited, hval.unretired, ?_⟩
    by_cases hgh : g = h
    · subst hgh
      exact .inr (hexp x t hx)
    · rw [objects_collect_of_ne hgh]
      exact hval.there
  · intro g hg
    by_cases hgh : g = h
    · subst hgh
      exact ⟨objects_collect_self, hcit⟩
    · rw [objects_collect_of_ne hgh]
      exact hS.collected g (hg.resolve_left hgh)

variable [DecidableEq P]

def grant (S : GraceStore H P) (x : P) (h : H) : GraceStore H P :=
  { S.put h with ticket := update S.ticket x (some (h, S.time)) }

theorem ticket_grant {y : P} (hy : (S.grant x h).ticket y = some (g, t)) :
    y = x ∧ g = h ∧ t = S.time ∨ S.ticket y = some (g, t) := by
  change update S.ticket x (some (h, S.time)) y = some (g, t) at hy
  rw [update_apply] at hy
  split at hy
  · next hyx =>
    cases hy
    exact .inl ⟨hyx, rfl, rfl⟩
  · exact .inr hy

theorem Sound.grant (hS : S.Sound grace) (hnew : h ∉ S.known) (x : P) :
    (S.grant x h).Sound grace := by
  have hunu : ¬S.InUse h := fun huse => hnew (hS.known h huse)
  have hput : (S.put h).Sound grace :=
    hS.put (fun hmem => hunu (.inr (.inr (.inr (.inl hmem)))))
      fun y t hy => hunu (.of_ticket hy)
  -- the new ticket is the only one for its object
  have honly : ∀ y g t, S.ticket y = some (g, t) → g ≠ h := by
    rintro y g t hy rfl
    exact hunu (.of_ticket hy)
  refine ⟨?_, ?_, ?_, hput.collected⟩
  · intro g hg
    rcases hg.of_tickets (S := S.put h) with hg | ⟨y, t, hy⟩
    · exact hput.known g hg
    · rcases ticket_grant hy with ⟨-, rfl, -⟩ | hy
      · exact Set.mem_insert g _
      · exact hput.known g (.of_ticket hy)
  · intro y g t hy
    rcases ticket_grant hy with ⟨-, rfl, rfl⟩ | hy
    · refine ⟨le_rfl, fun hmem => hunu (.inr (.inl hmem)),
        fun hmem => hunu (.inr (.inr (.inl hmem))), .inl ?_⟩
      exact objects_put_self
    · exact { hput.valid y g t hy with }
  · intro y z g t u hy hz
    rcases ticket_grant hy with ⟨rfl, rfl, -⟩ | hy
    · rcases ticket_grant hz with ⟨rfl, -, -⟩ | hz
      · rfl
      · exact absurd rfl (honly z g u hz)
    · rcases ticket_grant hz with ⟨-, hgh, -⟩ | hz
      · exact absurd hgh (honly y g t hy)
      · exact hS.distinct y z g t u hy hz

/-! ### Steps -/

/-- What can happen beside the installation of new citations by the collecting party. -/
inductive Step (grace : ℕ) (S : GraceStore H P) : GraceStore H P → Prop
  | stay : Step grace S S
  | tick : Step grace S { S with time := S.time + 1 }
  /-- An object that the collecting party will cite, under a name that was not collected. -/
  | put {h : H} (hno : S.objects h = none) (hcoll : h ∉ S.collected)
      (htk : ∀ x t, S.ticket x ≠ some (h, t)) : Step grace S (S.put h)
  | grant {x : P} {h : H} (hnew : h ∉ S.known) : Step grace S (S.grant x h)
  | release {x : P} : Step grace S (S.release x)
  | redeem {x : P} {h : H} {t : ℕ} {D : Set H} (hx : S.ticket x = some (h, t))
      (htm : S.time < t + grace) (hD : D ⊆ insert h S.cited) :
      Step grace S ((S.release x).cite D)
  | drop {D : Set H} (hD : D ⊆ S.cited) : Step grace S (S.cite D)
  | collect {h : H} (hkn : h ∈ S.known) (hcit : h ∉ S.cited)
      (hexp : ∀ x t, S.ticket x = some (h, t) → t + grace ≤ S.time) :
      Step grace S (S.collect h)

theorem Sound.step (hS : S.Sound grace) (hs : Step grace S S') : S'.Sound grace := by
  cases hs with
  | stay => exact hS
  | tick => exact hS.tick
  | put _ hcoll htk => exact hS.put hcoll htk
  | grant hnew => exact hS.grant hnew _
  | release => exact hS.release _
  | redeem hx htm hD => exact hS.redeem hx htm hD
  | drop hD => exact hS.cite fun h hh => .inl (hD hh)
  | collect hkn hcit hexp => exact hS.collect hkn hcit hexp

theorem Step.time_le (hs : Step grace S S') : S.time ≤ S'.time := by
  cases hs with
  | tick => exact Nat.le_succ S.time
  | _ => exact le_rfl

theorem Step.retired_subset (hs : Step grace S S') : S.retired ⊆ S'.retired := by
  cases hs with
  | redeem _ _ _ | drop _ => exact Set.subset_union_right
  | _ => exact subset_rfl

theorem Step.there (hs : Step grace S S') (hth : (S.objects h).isSome)
    (hcoll : h ∉ S'.collected) : (S'.objects h).isSome := by
  cases hs with
  | @put g _ _ _ =>
    by_cases hgh : h = g
    · rw [hgh, objects_put_self]
      rfl
    · rwa [objects_put_of_ne hgh]
  | @grant x g _ =>
    by_cases hgh : h = g
    · rw [hgh]
      exact isSome_of_eq_some objects_put_self
    · exact (congrArg isSome (objects_put_of_ne (S := S) hgh)).trans hth
  | @collect g _ _ _ =>
    have hgh : h ≠ g := by
      rintro rfl
      exact hcoll (Set.mem_insert h _)
    rwa [objects_collect_of_ne hgh]
  | _ => exact hth

/-! ### A collector's view along the steps -/

theorem Covered.step (hcov : S.Covered D) (hS : S.Sound grace) (hs : Step grace S S') :
    S'.Covered D := by
  -- while the citations stay, it is enough that what is there stays there
  have hkeep : S'.cited = S.cited → S'.retired = S.retired → S'.Covered D := by
    intro hcit hret h hh
    rw [hcit] at hh
    refine (hcov h hh).imp_right fun ⟨hnot, hth⟩ => ⟨hret ▸ hnot, ?_⟩
    exact hs.there hth fun hmem => ((hS.step hs).collected h hmem).2 (hcit ▸ hh)
  cases hs with
  | @redeem x g t E hx htm hE =>
    have hrel : (S.release x).Covered D := hcov
    refine hrel.cite fun h hh => ?_
    rcases hE hh with rfl | hcit
    · exact .inr ⟨(hS.valid x h t hx).unretired, isSome_of_eq_some (hS.there hx htm)⟩
    · exact .inl hcit
  | drop hE => exact hcov.cite fun h hh => .inl (hE hh)
  | _ => exact hkeep rfl rfl

theorem Recent.step (hrcn : S.Recent grace now D) (hnow : now ≤ S.time) (hS : S.Sound grace)
    (hs : Step grace S S') : S'.Recent grace now D := by
  cases hs with
  | stay | tick | release => exact hrcn
  | @put g hno _ _ =>
    intro h hh
    refine (hrcn h hh).imp_right fun ⟨m, hm, hyng⟩ => ⟨m, ?_, hyng⟩
    have hgh : h ≠ g := by
      rintro rfl
      exact absurd (hno.symm.trans hm) (by simp)
    rwa [objects_put_of_ne hgh]
  | @grant x g hnew =>
    intro h hh
    have hgh : h ≠ g := by
      rintro rfl
      exact hnew (hS.known h (.inr (.inl hh)))
    refine (hrcn h hh).imp_right fun ⟨m, hm, hyng⟩ => ⟨m, ?_, hyng⟩
    exact (objects_put_of_ne hgh).trans hm
  | @redeem x g t E hx htm hE =>
    have hrel : (S.release x).Recent grace now D := hrcn
    refine hrel.cite fun h hh => ?_
    rcases hE hh with rfl | hcit
    · have hle : t ≤ S.time := (hS.valid x h t hx).le_time
      exact .inr ⟨t, hS.there hx htm, by omega⟩
    · exact .inl hcit
  | drop hE => exact hrcn.cite fun h hh => .inl (hE hh)
  | @collect g _ hcit _ =>
    intro h hh
    have hgh : h ≠ g := by
      rintro rfl
      exact hcit hh
    refine (hrcn h hh).imp_right fun ⟨m, hm, hyng⟩ => ⟨m, ?_, hyng⟩
    rwa [objects_collect_of_ne hgh]

theorem Listed.step (hlis : S.Listed objects) (hS : S.Sound grace) (hs : Step grace S S') :
    S'.Listed objects := by
  intro h m hm
  have hold := hlis h m hm
  cases hs with
  | @put g hno hcoll _ =>
    have hgh : h ≠ g := by
      rintro rfl
      rcases hold with hth | hgo
      · exact absurd (hno.symm.trans hth) (by simp)
      · exact hcoll hgo
    rwa [objects_put_of_ne hgh]
  | @grant x g hnew =>
    have hgh : h ≠ g := by
      rintro rfl
      rcases hold with hth | hgo
      · exact hnew (hS.known h (.inl (isSome_of_eq_some hth)))
      · exact hnew (hS.known h (.inr (.inr (.inr (.inl hgo)))))
    exact hold.imp_left (objects_put_of_ne hgh).trans
  | @collect g _ _ _ =>
    by_cases hgh : h = g
    · exact .inr (.inl hgh)
    · rw [objects_collect_of_ne hgh]
      exact hold.imp_right .inr
  | _ => exact hold

end GraceStore
