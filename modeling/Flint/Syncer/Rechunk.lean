import Flint.Syncer.Stream
import Mathlib.Data.List.TakeWhile

/-!
# A chunk list that is changed is the one that is made anew

A region of `rechunkWith` makes the runs of the stream from where it starts to where it stops. Where
it stops at a cut, what is left is again a stream that begins at an old chunk, and the next change
is not below this chunk, so every region takes a change.
-/

namespace Flint.Syncer

open Option hiding map_map
open Cursor hiding synced
open KeyedTable SortedMap Runs List

variable {F : Format} {z : Sizing} {chunks : List EntryMap} {old : List ChunkRef}

/-- A reference and its body are those of a chunk; without a body it is an old one. -/
structure Made (F : Format) (old : List ChunkRef) (o : ChunkRef × Option Bytes) (c : EntryMap) :
    Prop where
  ref : o.1 = (encodeChunk F (firstKey c) c).1
  body : ∀ b ∈ o.2, b = (encodeChunk F (firstKey c) c).2
  kept : o.2 = none → o.1 ∈ old

def Produced (F : Format) (old : List ChunkRef) (out out' : List (ChunkRef × Option Bytes))
    (l l' : List (List Item)) : Prop :=
  ∃ os cs, out' = out ++ os ∧ Forall₂ (Made F old) os cs ∧ l = cs.map rows ++ l'

theorem Produced.refl (out : List (ChunkRef × Option Bytes)) (l : List (List Item)) :
    Produced F old out out l l :=
  ⟨[], [], (append_nil out).symm, .nil, rfl⟩

theorem Produced.trans {out₁ out₂ out₃ : List (ChunkRef × Option Bytes)}
    {l₁ l₂ l₃ : List (List Item)} (h₁ : Produced F old out₁ out₂ l₁ l₂)
    (h₂ : Produced F old out₂ out₃ l₂ l₃) : Produced F old out₁ out₃ l₁ l₃ := by
  obtain ⟨os₁, cs₁, rfl, hmd₁, rfl⟩ := h₁
  obtain ⟨os₂, cs₂, rfl, hmd₂, rfl⟩ := h₂
  refine ⟨os₁ ++ os₂, cs₁ ++ cs₂, append_assoc _ _ _, rel_append hmd₁ hmd₂, ?_⟩
  rw [map_append, append_assoc]

theorem Produced.fresh (out : List (ChunkRef × Option Bytes)) (run : EntryMap) {f : Str}
    (hf : run.keys.head? = some f) (l : List (List Item)) :
    Produced F old out (out ++ [freshChunk F f run]) (run.rows :: l) l := by
  have hfst : firstKey run = f := by
    unfold firstKey
    rw [hf, getD_some]
  refine ⟨_, [run], rfl, .cons ?_ .nil, rfl⟩
  rw [← hfst]
  exact ⟨rfl, fun b hb => (mem_some_iff.mp hb).symm, fun h =>
    absurd h (some_ne_none _)⟩

theorem Produced.reused (out : List (ChunkRef × Option Bytes)) {cs : List EntryMap}
    (hcs : cs ⊆ chunks) (l : List (List Item)) :
    Produced F (refsOf F chunks) out (out ++ Syncer.reused (refsOf F cs)) (cs.map rows ++ l) l := by
  refine ⟨_, cs, rfl, ?_, rfl⟩
  unfold Syncer.reused refsOf
  rw [map_map, forall₂_map_left_iff, forall₂_same]
  intro c hc
  exact ⟨rfl, fun b hb => absurd hb (not_mem_none b), fun _ => mem_map_of_mem (hcs hc)⟩

/-! ### A region -/

def Cursor.left (chunks : List EntryMap) (s : Cursor) : ℕ :=
  s.cur.length + s.changes.length + (rowsFrom chunks (s.m + 1)).length + (chunks.length - (s.m + 1))

structure Regional (F : Format) (z : Sizing) (chunks : List EntryMap) (s : Cursor)
    (run : List Item) (out : List (ChunkRef × Option Bytes)) (r : Region) : Prop where
  made : Produced F (refsOf F chunks) out r.out (runsFrom (cutRule F z) run (s.stream chunks))
    (runs (cutRule F z) (patchRows (rowsFrom chunks r.i) r.changes))
  suffix : r.changes <:+ s.changes
  next : ∀ c ∈ r.changes.head?, s.m < r.i ∧
    ∃ next, (refsOf F chunks)[r.i]? = some next ∧ next.first ≤ c.1

variable {s : Cursor} {run : List Item}

theorem Cursor.Sorted.forget (hs : s.Sorted chunks run) : s.Sorted chunks [] where
  rest := hs.rest
  changes := hs.changes
  run_rest := nofun
  run_changes := nofun

variable {s' : Cursor} {x : Option Item} {oldLast : Bool}

theorem Moved.sorted (h : Moved chunks s x oldLast s') (hs : s.Sorted chunks run) :
    s'.Sorted chunks (run ++ x.toList) where
  rest := hs.rest.sublist h.rest_sub.sublist
  changes := hs.changes.sublist h.suffix.sublist
  run_rest := forall_mem_append.mpr
    ⟨fun r hr y hy => hs.run_rest r hr y (h.rest_sub.subset hy),
      fun r hr => h.above_rest r (mem_toList.mp hr)⟩
  run_changes := forall_mem_append.mpr
    ⟨fun r hr c hc => hs.run_changes r hr c (h.suffix.subset hc),
      fun r hr => h.above_changes r (mem_toList.mp hr)⟩

theorem Moved.run_lt {x : Item} (h : Moved chunks s (some x) oldLast s')
    (hs : s.Sorted chunks run) : ∀ r ∈ run, r.1 < x.1 := by
  intro r hr
  rcases h.from_rest x rfl with hx | hx
  · exact hs.run_rest r hr x hx
  · exact hs.run_changes r hr _ hx

theorem Moved.left_lt (h : Moved chunks s x oldLast s') : s'.left chunks < s.left chunks := by
  unfold left
  rw [h.place]
  have := h.fewer
  omega

variable {out : List (ChunkRef × Option Bytes)} {r : Region}

theorem Regional.of_moved {run' : List Item} {out' : List (ChunkRef × Option Bytes)}
    (hm : Moved chunks s x oldLast s') (hr : Regional F z chunks s' run' out' r)
    (hmd : Produced F (refsOf F chunks) out out'
      (runsFrom (cutRule F z) run (x.toList ++ s'.stream chunks))
      (runsFrom (cutRule F z) run' (s'.stream chunks))) : Regional F z chunks s run out r where
  made := by
    rw [hm.stream]
    exact hmd.trans hr.made
  suffix := hr.suffix.trans hm.suffix
  next := by
    rw [← hm.place]
    exact hr.next

theorem rest_advance {c : EntryMap} (hcur : s.cur = []) (hc : chunks[s.m + 1]? = some c) :
    ({ s with m := s.m + 1, cur := c.rows } : Cursor).rest chunks = s.rest chunks := by
  unfold rest
  rw [hcur, rowsFrom_of_lt hc, nil_append]

theorem left_advance {c : EntryMap} (hcur : s.cur = []) (hc : chunks[s.m + 1]? = some c) :
    ({ s with m := s.m + 1, cur := c.rows } : Cursor).left chunks < s.left chunks := by
  have hlt : s.m + 1 < chunks.length := (List.getElem?_eq_some_iff.mp hc).1
  unfold left
  rw [hcur, rowsFrom_of_lt hc, length_append]
  dsimp only [length_nil]
  omega

theorem Regional.synced (hla : oldLast → s.cur = [])
    (h : s.synced (refsOf F chunks) oldLast) (out : List (ChunkRef × Option Bytes)) :
    Regional F z chunks s [] out ⟨out, s.m + 1, s.changes⟩ where
  made := by
    obtain ⟨hla', -⟩ := Bool.and_eq_true_iff.mp h
    have hrs : s.rest chunks = rowsFrom chunks (s.m + 1) := by
      rw [rest, hla hla', nil_append]
    rw [stream, hrs]
    exact .refl out _
  suffix := suffix_rfl
  next := by
    intro c hc
    change s.changes.head? = some c at hc
    refine ⟨Nat.lt_succ_self _, ?_⟩
    rw [Cursor.synced, hc] at h
    change ∃ next, (refsOf F chunks)[s.m + 1]? = some next ∧ _
    cases hnx : (refsOf F chunks)[s.m + 1]? with
    | none =>
      rw [hnx] at h
      exact absurd h (by simp)
    | some next =>
      rw [hnx] at h
      exact ⟨next, rfl, of_decide_eq_true (Bool.and_eq_true_iff.mp h).2⟩

theorem Regional.done (hrs : s.rest chunks = []) (hchs : s.changes = []) (run : EntryMap)
    (out : List (ChunkRef × Option Bytes)) :
    Regional F z chunks s run.rows out
      ⟨out ++ (run.keys.head?.map fun f => freshChunk F f run).toList, (refsOf F chunks).length,
        s.changes⟩ where
  made := by
    have hno : rowsFrom chunks (refsOf F chunks).length = [] := by
      rw [refsOf, length_map]
      exact rowsFrom_of_le le_rfl
    rw [stream, hrs, hchs, hno, patchRows]
    change Produced _ _ _ _ (if run.rows.isEmpty then [] else [run.rows]) []
    cases hf : run.keys.head? with
    | none =>
      have hemp : run.rows = [] := map_eq_nil_iff.mp (head?_eq_none_iff.mp hf)
      rw [if_pos (by rw [hemp]; rfl), map_none, toList_none, append_nil]
      exact .refl out []
    | some f =>
      have hne : run.rows ≠ [] := by
        intro hemp
        rw [SortedMap.keys, hemp] at hf
        cases hf
      rw [if_neg (by simpa using hne)]
      exact .fresh out run hf []
  suffix := suffix_rfl
  next := by
    rw [hchs]
    exact fun c hc => absurd hc (not_mem_none c)

theorem keys_head_insert {run : EntryMap} {path : Str} {e : LeanEntry}
    (hrw : (run.insert path e).rows = run.rows ++ [(path, e)]) :
    (run.insert path e).keys.head? = some (run.keys.head?.getD path) := by
  unfold SortedMap.keys
  rw [hrw]
  cases run.rows with
  | nil | cons x l => rfl

theorem rechunkRegion_spec (hcks : Ordered chunks) (fuel : ℕ) (s : Cursor) (run : EntryMap)
    (out : List (ChunkRef × Option Bytes)) (hs : s.Sorted chunks run.rows)
    (hfuel : s.left chunks < fuel) :
    ∃ r, rechunkRegion (refsOf F chunks) F z (fun i => chunks[i]?) fuel s run run.keys.head? out =
      .ok r ∧ Regional F z chunks s run.rows out r := by
  -- the fuel bounds the steps that are left, and every turn of the loop takes one
  induction fuel generalizing s run out with
  | zero => exact absurd hfuel (Nat.not_lt_zero _)
  | succ fuel ih =>
    have hif : (s.cur.isEmpty && (s.change (refsOf F chunks)).isNone &&
        decide (s.m + 1 < (refsOf F chunks).length)) ↔
        s.cur = [] ∧ s.change (refsOf F chunks) = none ∧ s.m + 1 < chunks.length := by
      simp [refsOf, and_assoc]
    rw [rechunkRegion]
    by_cases hstay : s.cur = [] ∧ s.change (refsOf F chunks) = none ∧ s.m + 1 < chunks.length
    · rw [if_pos (hif.mpr hstay)]
      obtain ⟨hcur, -, hlt⟩ := hstay
      have hc : chunks[s.m + 1]? = some chunks[s.m + 1] := getElem?_eq_getElem hlt
      have hrs := rest_advance hcur hc
      rw [hc]
      obtain ⟨r, hrun, hr⟩ := ih { s with m := s.m + 1, cur := chunks[s.m + 1].rows } run out
        { rest := hrs ▸ hs.rest, changes := hs.changes,
          run_rest := hrs ▸ hs.run_rest, run_changes := hs.run_changes }
        (Nat.lt_of_lt_of_le (left_advance hcur hc) (Nat.le_of_lt_succ hfuel))
      refine ⟨r, hrun, ?_, hr.suffix, fun c hc' => ?_⟩
      · rw [stream, ← hrs]
        exact hr.made
      · obtain ⟨hplc, hnx⟩ := hr.next c hc'
        exact ⟨Nat.lt_of_succ_lt hplc, hnx⟩
    · rw [if_neg (mt hif.mp hstay)]
      rcases hcks.next_spec hs hstay with ⟨hdn, hrs, hchs⟩ | ⟨hne, hm⟩
      · rw [hdn]
        have hr := Regional.done (F := F) (z := z) hrs hchs run out
        cases hf : run.keys.head? with
        | none =>
          rw [hf, map_none, toList_none, append_nil] at hr
          exact ⟨_, rfl, hr⟩
        | some f =>
          rw [hf] at hr
          exact ⟨_, rfl, hr⟩
      · generalize s.next (refsOf F chunks) = n at hne hm ⊢
        obtain ⟨step, s'⟩ := n
        have hfuel' : s'.left chunks < fuel :=
          Nat.lt_of_lt_of_le hm.left_lt (Nat.le_of_lt_succ hfuel)
        have hs' := hm.sorted hs
        cases step with
        | done => exact absurd rfl hne
        | skip =>
          have hs'' : s'.Sorted chunks (run.rows ++ []) := hs'
          rw [append_nil] at hs''
          obtain ⟨r, hrun, hr⟩ := ih s' run out hs'' hfuel'
          exact ⟨r, hrun, hr.of_moved hm (.refl out _)⟩
        | key path e oldLast =>
          have hrw : (run.insert path e).rows = run.rows ++ [(path, e)] :=
            rows_insert_of_lt (Moved.run_lt hm hs)
          have hhd := keys_head_insert hrw
          have hcut : endsChunk F z (run.insert path e).rows.length path =
              cutRule F z (run.rows.length + 1) (path, e) := by
            rw [hrw, length_append]
            rfl
          by_cases hends : cutRule F z (run.rows.length + 1) (path, e)
          · have hmd : Produced F (refsOf F chunks) out
                (out ++ [freshChunk F (run.keys.head?.getD path) (run.insert path e)])
                (runsFrom (cutRule F z) run.rows ((path, e) :: s'.stream chunks))
                (runsFrom (cutRule F z) [] (s'.stream chunks)) := by
              rw [runsFrom, if_pos hends, ← hrw]
              exact .fresh out _ hhd _
            by_cases hsy : s'.synced (refsOf F chunks) oldLast
            · exact ⟨_, (if_pos (hcut.trans hends)).trans (if_pos hsy),
                (Regional.synced hm.last hsy _).of_moved hm hmd⟩
            · obtain ⟨r, hrun, hr⟩ := ih s' .empty _ hs'.forget hfuel'
              exact ⟨r, (if_pos (hcut.trans hends)).trans ((if_neg hsy).trans hrun),
                hr.of_moved hm hmd⟩
          · obtain ⟨r, hrun, hr⟩ := ih s' (run.insert path e) out (hrw ▸ hs') hfuel'
            rw [hhd] at hrun
            refine ⟨r, (if_neg (hcut ▸ hends)).trans hrun, hr.of_moved hm ?_⟩
            change Produced _ _ _ _ (runsFrom _ _ ((path, e) :: s'.stream chunks)) _
            rw [runsFrom, if_neg hends, ← hrw]
            exact .refl out _

/-! ### The loop over the regions -/

theorem Ordered.firsts (hcks : Ordered chunks) :
    (refsOf F chunks).Pairwise fun a b => a.first < b.first := by
  unfold refsOf
  have hsrt := (pairwise_flatten.mp hcks.sorted).2
  rw [pairwise_map] at hsrt ⊢
  -- the first path of a chunk is one of its paths
  have hfst : ∀ c ∈ chunks, ∃ x ∈ c.rows, firstKey c = x.1 := by
    intro c hc
    obtain ⟨x, l, hrw⟩ := exists_cons_of_ne_nil (hcks.nonempty c hc)
    refine ⟨x, by rw [hrw]; exact .head _, ?_⟩
    rw [firstKey, SortedMap.keys, hrw]
    rfl
  refine hsrt.imp_of_mem fun {a b} ha hb hab => ?_
  obtain ⟨x, hx, hax⟩ := hfst a ha
  obtain ⟨y, hy, hby⟩ := hfst b hb
  change firstKey a < firstKey b
  rw [hax, hby]
  exact hab x hx y hy

theorem first_le_of_home {p : Str} (h : 0 < home old p) :
    ∃ r, old[home old p]? = some r ∧ r.first ≤ p := by
  unfold home at h ⊢
  generalize hfront : old.takeWhile (fun r => r.first ≤ p) = front at h ⊢
  have hlt : front.length - 1 < front.length := by omega
  refine ⟨front[front.length - 1], ?_, ?_⟩
  · have hprefix : front <+: old := hfront ▸ takeWhile_prefix _
    exact prefix_iff_getElem?.mp hprefix _ hlt
  · have hmem : front[front.length - 1] ∈ old.takeWhile fun r => r.first ≤ p :=
      hfront ▸ getElem_mem hlt
    simpa using mem_takeWhile_imp hmem

variable {j : ℕ}

theorem lt_first_of_home {p : Str} (hold : old.Pairwise fun a b => a.first < b.first)
    (hj : home old p < j) {r : ChunkRef} (hr : old[j]? = some r) : p < r.first := by
  have hlen : (old.takeWhile fun r => r.first ≤ p).length ≤ j := by
    unfold home at hj
    omega
  have hspl := takeWhile_append_dropWhile (p := fun r : ChunkRef => r.first ≤ p) (l := old)
  rw [← hspl, getElem?_append_right hlen] at hr
  have hmem := mem_of_getElem? hr
  rw [← hspl] at hold
  have hrs := (pairwise_append.mp hold).2.1
  cases hdr : old.dropWhile fun r => r.first ≤ p with
  | nil =>
    rw [hdr] at hmem
    cases hmem
  | cons a rest =>
    rw [hdr] at hmem hrs
    have ha : p < a.first := by
      have := head?_dropWhile_not (fun r : ChunkRef => decide (r.first ≤ p)) old
      rw [hdr] at this
      simpa using this
    rcases mem_cons.mp hmem with rfl | hmem
    · exact ha
    · exact ha.trans ((pairwise_cons.mp hrs).1 r hmem)

variable {i : ℕ}

theorem drop_eq_append {α : Type} (l : List α) (h : i ≤ j) :
    l.drop i = (l.take j).drop i ++ l.drop j := by
  obtain ⟨n, rfl⟩ := Nat.exists_eq_add_of_le h
  rw [drop_take, Nat.add_sub_cancel_left, ← drop_drop, take_append_drop]

theorem rowsFrom_eq_append (h : i ≤ j) :
    rowsFrom chunks i = (((chunks.take j).drop i).map rows).flatten ++ rowsFrom chunks j := by
  unfold rowsFrom
  rw [drop_eq_append chunks h, map_append, flatten_append]

theorem Ordered.rowsFrom_sorted (hcks : Ordered chunks) (i : ℕ) :
    (rowsFrom chunks i).Pairwise fun a b => a.1 < b.1 := by
  have h := hcks.sorted
  change (rowsFrom chunks 0).Pairwise _ at h
  rw [rowsFrom_eq_append (Nat.zero_le i)] at h
  exact (pairwise_append.mp h).2.1

theorem produced_reused (hcks : Ordered chunks) {l : List Item}
    (hruns : chunks.map rows = runs (cutRule F z) l)
    {changes : List (Str × Option LeanEntry)} {start : ℕ} (hle : i ≤ start)
    (hst : i < start → ∃ r, (refsOf F chunks)[start]? = some r ∧ ∀ c ∈ changes, r.first ≤ c.1)
    (out : List (ChunkRef × Option Bytes)) :
    Produced F (refsOf F chunks) out (out ++ reused (((refsOf F chunks).take start).drop i))
      (runs (cutRule F z) (patchRows (rowsFrom chunks i) changes))
      (runs (cutRule F z) (patchRows (rowsFrom chunks start) changes)) := by
  have hrf : ((refsOf F chunks).take start).drop i = refsOf F ((chunks.take start).drop i) := by
    unfold refsOf
    rw [← map_take, ← map_drop]
  rw [hrf]
  suffices hspl : runs (cutRule F z) (patchRows (rowsFrom chunks i) changes) =
      ((chunks.take start).drop i).map rows ++
        runs (cutRule F z) (patchRows (rowsFrom chunks start) changes) by
    rw [hspl]
    exact .reused out (fun c hc => mem_of_mem_take (mem_of_mem_drop hc)) _
  rcases hle.eq_or_lt with rfl | hlt
  · rw [drop_take, Nat.sub_self, take_zero, map_nil, nil_append]
  · obtain ⟨r, hr, hfst⟩ := hst hlt
    obtain ⟨y, hy, hry⟩ := first_of_next hcks hr
    -- what is taken over is below the chunk at `start`, and so below the changes
    have hsrt := hcks.rowsFrom_sorted i
    rw [rowsFrom_eq_append hle] at hsrt
    have hbel : ∀ x ∈ (((chunks.take start).drop i).map rows).flatten,
        ∀ c ∈ changes, x.1 < c.1 := by
      intro x hx c hc
      calc x.1 < y.1 := (pairwise_append.mp hsrt).2.2 x hx y (mem_of_mem_head? hy)
        _ = r.first := hry.symm
        _ ≤ c.1 := hfst c hc
    have hlong : start < chunks.length := by
      have := (List.getElem?_eq_some_iff.mp hr).1
      rwa [refsOf, length_map] at this
    have hsf := @runs_flatten_drop _ (cutRule F z) l i
    rw [← hruns, ← map_drop, drop_eq_append chunks hle, map_append] at hsf
    rw [rowsFrom_eq_append hle, patchRows_append hbel]
    refine runs_append_of_runs hsf ?_ _
    intro hnil
    rw [map_eq_nil_iff, drop_eq_nil_iff] at hnil
    omega

theorem rest_start (start : ℕ) (changes : List (Str × Option LeanEntry)) :
    (⟨start, (chunks[start]?.map rows).getD [], changes⟩ : Cursor).rest chunks =
      rowsFrom chunks start := by
  unfold rest
  cases hc : chunks[start]? with
  | none =>
    have hle : chunks.length ≤ start := getElem?_eq_none_iff.mp hc
    rw [rowsFrom_of_le hle, rowsFrom_of_le (hle.trans (Nat.le_succ _))]
    rfl
  | some c =>
    rw [rowsFrom_of_lt hc]
    rfl

theorem left_start (start : ℕ) (changes : List (Str × Option LeanEntry)) :
    (⟨start, (chunks[start]?.map rows).getD [], changes⟩ : Cursor).left chunks <
      regionFuel (refsOf F chunks) changes := by
  have hrs := congrArg length (@rest_start chunks start changes)
  rw [rest, length_append] at hrs
  have hall := congrArg length (@rowsFrom_eq_append chunks start 0 (Nat.zero_le start))
  rw [length_append] at hall
  have hsum : ((refsOf F chunks).map ChunkRef.n).sum = (rowsFrom chunks 0).length := by
    rw [rowsFrom, length_flatten, refsOf, map_map, drop_zero, map_map]
    rfl
  unfold left regionFuel
  rw [hsum, refsOf, length_map]
  dsimp only at hrs ⊢
  omega

variable {c : Str × Option LeanEntry}

theorem first_le_of_start {changes : List (Str × Option LeanEntry)} (hhd : changes.head? = some c)
    (hsrt : changes.Pairwise fun a b => a.1 < b.1) {start : ℕ}
    (hst : Nat.max (home old c.1) i = start) (hlt : i < start) :
    ∃ r, old[start]? = some r ∧ ∀ c' ∈ changes, r.first ≤ c'.1 := by
  have hhome : home old c.1 = start := by
    rcases Nat.le_total (home old c.1) i with hle | hle
    · exact absurd ((Nat.max_eq_right hle).symm.trans hst) hlt.ne
    · exact (Nat.max_eq_left hle).symm.trans hst
  subst hhome
  obtain ⟨r, hr, hle⟩ := first_le_of_home (Nat.zero_lt_of_lt hlt)
  refine ⟨r, hr, ?_⟩
  obtain ⟨tail, rfl⟩ := head?_eq_some_iff.mp hhd
  exact forall_mem_cons.mpr ⟨hle, fun c' hc' => hle.trans ((pairwise_cons.mp hsrt).1 c' hc').le⟩

theorem Regional.fewer (hcks : Ordered chunks) (hr : Regional F z chunks s run out r)
    (hhd : s.changes.head? = some c) (hhome : home (refsOf F chunks) c.1 ≤ s.m) :
    r.changes.length < s.changes.length := by
  refine lt_of_le_of_ne hr.suffix.length_le fun heq => ?_
  have hsm : r.changes = s.changes := hr.suffix.eq_of_length heq
  obtain ⟨hplc, next, hnx, hle⟩ := hr.next c (hsm ▸ hhd)
  have hlt := lt_first_of_home hcks.firsts (hhome.trans_lt hplc) hnx
  exact absurd hle hlt.not_ge

theorem rechunkLoop_cons (fuel : ℕ) (hc : r.changes.head? = some c) :
    let start := Nat.max (home (refsOf F chunks) c.1) r.i
    rechunkLoop (refsOf F chunks) F z (fun i => chunks[i]?) (fuel + 1) r =
      rechunkRegion (refsOf F chunks) F z (fun i => chunks[i]?)
        (regionFuel (refsOf F chunks) r.changes)
        ⟨start, (chunks[start]?.map rows).getD [], r.changes⟩ .empty none
        (r.out ++ reused (((refsOf F chunks).take start).drop r.i)) >>=
      rechunkLoop (refsOf F chunks) F z (fun i => chunks[i]?) fuel := by
  intro start
  obtain ⟨tail, htl⟩ := head?_eq_some_iff.mp hc
  obtain ⟨out, i, changes⟩ := r
  dsimp only at htl
  subst htl
  have hlen : (refsOf F chunks).length = chunks.length := by rw [refsOf, length_map]
  rw [rechunkLoop]
  change (if start < (refsOf F chunks).length then _ else _) = _
  by_cases hlt : start < chunks.length
  · rw [if_pos (hlen ▸ hlt)]
    dsimp only
    rw [getElem?_eq_getElem hlt]
    rfl
  · rw [if_neg (hlen ▸ hlt), getElem?_eq_none (not_lt.mp hlt)]
    rfl

theorem rechunkLoop_spec (hcks : Ordered chunks) {l : List Item}
    (hruns : chunks.map rows = runs (cutRule F z) l) (fuel : ℕ) (r : Region)
    (hsrt : r.changes.Pairwise fun a b => a.1 < b.1) (hfuel : r.changes.length ≤ fuel) :
    ∃ r', rechunkLoop (refsOf F chunks) F z (fun i => chunks[i]?) fuel r = .ok r' ∧
      Produced F (refsOf F chunks) r.out r'.out
        (runs (cutRule F z) (patchRows (rowsFrom chunks r.i) r.changes))
        (runs (cutRule F z) (rowsFrom chunks r'.i)) := by
  -- every region takes at least the change that it was opened for
  induction fuel generalizing r with
  | zero =>
    have hnil : r.changes = [] := length_eq_zero_iff.mp (Nat.le_zero.mp hfuel)
    refine ⟨r, ?_, ?_⟩
    · rw [rechunkLoop, hnil]
      rfl
    · rw [hnil, patchRows]
      exact .refl _ _
  | succ fuel ih =>
    cases hhd : r.changes.head? with
    | none =>
      have hnil : r.changes = [] := head?_eq_none_iff.mp hhd
      refine ⟨r, ?_, ?_⟩
      · rw [rechunkLoop, hnil]
      · rw [hnil, patchRows]
        exact .refl _ _
    | some c =>
      rw [rechunkLoop_cons fuel hhd]
      generalize hst : Nat.max (home (refsOf F chunks) c.1) r.i = start
      have hhome : home (refsOf F chunks) c.1 ≤ start := hst ▸ Nat.le_max_left _ _
      have hreused := produced_reused hcks hruns (hst ▸ Nat.le_max_right _ _ : r.i ≤ start)
        (first_le_of_start hhd hsrt hst) r.out
      obtain ⟨r₁, hrun, hr⟩ := rechunkRegion_spec (F := F) (z := z) hcks _ _ .empty
        (r.out ++ reused (((refsOf F chunks).take start).drop r.i))
        { rest := (rest_start start r.changes).symm ▸ hcks.rowsFrom_sorted start
          changes := hsrt
          run_rest := forall_mem_nil _
          run_changes := forall_mem_nil _ }
        (left_start (F := F) start r.changes)
      have hmd := hr.made
      rw [stream, rest_start] at hmd
      have hfewer : r₁.changes.length ≤ fuel :=
        Nat.le_of_lt_succ ((hr.fewer hcks hhd hhome).trans_le hfuel)
      obtain ⟨r', hloop, hr'⟩ := ih r₁ (hsrt.sublist hr.suffix.sublist) hfewer
      refine ⟨r', ?_, (hreused.trans hmd).trans hr'⟩
      exact (congrArg (· >>= _) hrun).trans hloop

/-! ### The changed list -/

theorem slicesWith_ordered (F : Format) (z : Sizing) (entries : EntryMap) :
    Ordered (slicesWith F z entries) where
  nonempty := by
    intro c hc
    have hmem : c.rows ∈ runs (cutRule F z) entries.rows := by
      rw [← slicesWith_rows]
      exact mem_map_of_mem hc
    exact ne_nil_of_mem_runs hmem
  sorted := by
    rw [slicesWith_rows, flatten_runs]
    exact entries.sorted

theorem made_at {cs : List EntryMap} (h : Forall₂ (Made F old) out cs)
    {o : ChunkRef × Option Bytes} (hi : out[i]? = some o) :
    ∃ c, cs[i]? = some c ∧ Made F old o c := by
  obtain ⟨hlt, rfl⟩ := List.getElem?_eq_some_iff.mp hi
  have hlt' : i < cs.length := h.length_eq ▸ hlt
  exact ⟨cs[i], getElem?_eq_getElem hlt', h.get hlt hlt'⟩

theorem rechunkWith_made (F : Format) (z : Sizing) (entries : EntryMap)
    (changes : SortedMap Str (Option LeanEntry)) :
    ∃ out, rechunkWith (refsOf F (slicesWith F z entries)) F z
        (fun i => (slicesWith F z entries)[i]?) changes = .ok out ∧
      Forall₂ (Made F (refsOf F (slicesWith F z entries))) out
        (slicesWith F z (entries.patch changes)) := by
  have hord := slicesWith_ordered F z entries
  have hruns : (slicesWith F z entries).map rows = _ := slicesWith_rows entries
  obtain ⟨r, hloop, hmd⟩ := rechunkLoop_spec hord hruns changes.rows.length
    ⟨[], 0, changes.rows⟩ changes.sorted le_rfl
  have hrs := Produced.reused (F := F) r.out
    (fun c hc => mem_of_mem_drop hc : (slicesWith F z entries).drop r.i ⊆ _) []
  have hown : runs (cutRule F z) (rowsFrom (slicesWith F z entries) r.i) =
      ((slicesWith F z entries).drop r.i).map rows := by
    unfold rowsFrom
    rw [map_drop, hruns, runs_flatten_drop]
  have hall : rowsFrom (slicesWith F z entries) 0 = entries.rows := by
    unfold rowsFrom
    rw [drop_zero, hruns, flatten_runs]
  rw [hown, ← append_nil (map _ _)] at hmd
  obtain ⟨os, cs, hout, hforall, hcs⟩ := hmd.trans hrs
  refine ⟨_, congrArg (· >>= _) hloop, ?_⟩
  have hdr : (refsOf F (slicesWith F z entries)).drop r.i =
      refsOf F ((slicesWith F z entries).drop r.i) := map_drop.symm
  have hslices : cs = slicesWith F z (entries.patch changes) := by
    apply map_injective_iff.mpr fun _ _ => ext_rows
    rw [slicesWith_rows, rows_patch, ← hall]
    exact (hcs.trans (append_nil _)).symm
  change Forall₂ _ (r.out ++ reused ((refsOf F (slicesWith F z entries)).drop r.i)) _
  rw [hdr, hout, nil_append, ← hslices]
  exact hforall

/-- **A chunk list that is changed is the one that is made anew**, reference for reference. A body
that comes with a reference is that of the chunk, and a reference without one is old. -/
theorem rechunkWith_eq_splitWith (F : Format) (z : Sizing) (entries : EntryMap)
    (changes : SortedMap Str (Option LeanEntry)) :
    ∃ out, rechunkWith ((splitWith F z entries).map Prod.fst) F z
        (fun i => (slicesWith F z entries)[i]?) changes = .ok out ∧
      out.map Prod.fst = (splitWith F z (entries.patch changes)).map Prod.fst ∧
      (∀ (i : ℕ) (r : ChunkRef) (body : Bytes), out[i]? = some (r, some body) →
        (splitWith F z (entries.patch changes))[i]? = some (r, body)) ∧
      ∀ r, (r, none) ∈ out → r ∈ (splitWith F z entries).map Prod.fst := by
  obtain ⟨out, hrun, hmd⟩ := rechunkWith_made F z entries changes
  have hold : refsOf F (slicesWith F z entries) = (splitWith F z entries).map Prod.fst := by
    unfold splitWith
    rw [map_map]
    rfl
  rw [hold] at hrun hmd
  refine ⟨out, hrun, ?_, ?_, ?_⟩
  · unfold splitWith
    rw [map_map, ← forall₂_eq_eq_eq, forall₂_map_left_iff, forall₂_map_right_iff]
    exact hmd.imp fun _ _ h => h.ref
  · intro i r body hi
    obtain ⟨c, hc, h⟩ := made_at hmd hi
    have hpair : encodeChunk F (firstKey c) c = (r, body) :=
      Prod.ext h.ref.symm (h.body body rfl).symm
    rw [splitWith, getElem?_map, hc, map_some, hpair]
  · intro r hr
    obtain ⟨i, hi⟩ := mem_iff_getElem?.mp hr
    obtain ⟨c, -, h⟩ := made_at hmd hi
    exact h.kept rfl

end Flint.Syncer
