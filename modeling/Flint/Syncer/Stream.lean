import Flint.Basic.Runs
import Flint.Syncer.Chunk

/-!
# The stream of a changed document

The chunks of `splitWith` are the runs of the sorted stream under the rule `cutRule`, so after a cut
the stream is cut as if it began there. `rechunkWith` walks a stream of its own, the old entries
with the changes laid over them.
-/

namespace Flint.Syncer

open KeyedTable List Option SortedMap
open Runs (runs runsFrom)

abbrev Item := Str × LeanEntry

def cutRule (F : Format) (z : Sizing) (run : ℕ) (x : Item) : Bool := endsChunk F z run x.1

section Split

variable {F : Format} {z : Sizing}

def endsFrom (F : Format) (z : Sizing) (i run : ℕ) : List Str → List ℕ
  | [] => if 0 < run then [i] else []
  | k :: rest =>
    if endsChunk F z (run + 1) k then (i + 1) :: endsFrom F z (i + 1) 0 rest
    else endsFrom F z (i + 1) (run + 1) rest

theorem foldl_rangesStep (keys : List Str) (i run : ℕ) (cuts : List ℕ) :
    (let s := (keys.zipIdx i).foldl (rangesStep F z) (cuts, run)
    if 0 < s.2 then s.1 ++ [i + keys.length] else s.1) = cuts ++ endsFrom F z i run keys := by
  induction keys generalizing i run cuts with
  | nil =>
    change (if 0 < run then cuts ++ [i] else cuts) = cuts ++ if 0 < run then [i] else []
    split
    · rfl
    · rw [append_nil]
  | cons k keys ih =>
    have hleng : i + (k :: keys).length = i + 1 + keys.length := by
      rw [length_cons]
      omega
    rw [zipIdx_cons, foldl_cons, hleng, endsFrom, rangesStep]
    dsimp only
    split
    · rw [ih, append_assoc]
      rfl
    · exact ih (i + 1) (run + 1) cuts

theorem chunkRangesWith_eq (keys : List Str) :
    chunkRangesWith F z keys = endsFrom F z 0 0 keys := by
  have h := foldl_rangesStep (F := F) (z := z) keys 0 0 []
  rw [Nat.zero_add] at h
  exact h

theorem slicesFrom_rows (entries : EntryMap) (start : ℕ) (run l : List Item)
    (h : entries.rows.drop start = run ++ l) :
    (slicesFrom entries start (endsFrom F z (start + run.length) run.length (l.map Prod.fst))).map
        rows = runsFrom (cutRule F z) run l := by
  induction l generalizing start run with
  | nil =>
    rw [map_nil, endsFrom, runsFrom]
    cases run with
    | nil => rfl
    | cons x run =>
      rw [if_pos (by simp), if_neg (by simp)]
      change [(entries.rows.drop start).take (start + (x :: run).length - start)] = [x :: run]
      rw [h, Nat.add_sub_cancel_left, append_nil, take_length]
  | cons x l ih =>
    rw [map_cons, endsFrom, runsFrom]
    change (slicesFrom entries start (if cutRule F z (run.length + 1) x = true then _ else _)).map
      rows = _
    split
    · have hlen : start + run.length + 1 - start = (run ++ [x]).length := by
        rw [length_append, length_singleton]
        omega
      have hspl : entries.rows.drop start = (run ++ [x]) ++ l := by
        rw [h, append_assoc, singleton_append]
      have hdr : entries.rows.drop (start + run.length + 1) = [] ++ l := by
        have hadd : start + run.length + 1 = start + (run ++ [x]).length := by
          rw [length_append, length_singleton, Nat.add_assoc]
        rw [hadd, ← drop_drop, hspl, drop_left, nil_append]
      change (entries.rows.drop start).take _ :: _ = _
      rw [hlen, hspl, take_left]
      exact congrArg ((run ++ [x]) :: ·) (ih _ [] hdr)
    · have hspl : entries.rows.drop start = (run ++ [x]) ++ l := by
        rw [h, append_assoc, singleton_append]
      have hst := ih start (run ++ [x]) hspl
      rwa [length_append, length_singleton, ← Nat.add_assoc] at hst

theorem slicesWith_rows (entries : EntryMap) :
    (slicesWith F z entries).map rows = runs (cutRule F z) entries.rows := by
  unfold slicesWith
  rw [chunkRangesWith_eq]
  exact slicesFrom_rows entries 0 [] entries.rows rfl

end Split

/-! ### The stream of the changed document -/

section Rechunk

variable {F : Format} {z : Sizing} {chunks : List EntryMap}

def refsOf (F : Format) (chunks : List EntryMap) : List ChunkRef :=
  chunks.map fun slice => (encodeChunk F (firstKey slice) slice).1

def rowsFrom (chunks : List EntryMap) (i : ℕ) : List Item := ((chunks.drop i).map rows).flatten

structure Ordered (chunks : List EntryMap) : Prop where
  nonempty : ∀ c ∈ chunks, c.rows ≠ []
  sorted : (chunks.map rows).flatten.Pairwise fun a b => a.1 < b.1

variable {m : ℕ}

theorem rowsFrom_of_lt {c : EntryMap} (hc : chunks[m]? = some c) :
    rowsFrom chunks m = c.rows ++ rowsFrom chunks (m + 1) := by
  obtain ⟨hlt, hget⟩ := List.getElem?_eq_some_iff.mp hc
  unfold rowsFrom
  rw [drop_eq_getElem_cons hlt, hget]
  rfl

theorem rowsFrom_of_le (hm : chunks.length ≤ m) : rowsFrom chunks m = [] := by
  unfold rowsFrom
  rw [drop_eq_nil_of_le hm]
  rfl

def Cursor.rest (chunks : List EntryMap) (s : Cursor) : List Item :=
  s.cur ++ rowsFrom chunks (s.m + 1)

def Cursor.stream (chunks : List EntryMap) (s : Cursor) : List Item :=
  patchRows (s.rest chunks) s.changes

structure Cursor.Sorted (chunks : List EntryMap) (s : Cursor) (run : List Item) : Prop where
  rest : (s.rest chunks).Pairwise fun a b => a.1 < b.1
  changes : s.changes.Pairwise fun a b => a.1 < b.1
  run_rest : ∀ r ∈ run, ∀ x ∈ s.rest chunks, r.1 < x.1
  run_changes : ∀ r ∈ run, ∀ c ∈ s.changes, r.1 < c.1

theorem first_of_next (hcks : Ordered chunks) {ref : ChunkRef}
    (hnx : (refsOf F chunks)[m]? = some ref) :
    ∃ x ∈ (rowsFrom chunks m).head?, ref.first = x.1 := by
  unfold refsOf at hnx
  rw [getElem?_map, map_eq_some_iff] at hnx
  obtain ⟨c, hc, rfl⟩ := hnx
  have hne := hcks.nonempty c (mem_of_getElem? hc)
  obtain ⟨x, l, hrw⟩ := exists_cons_of_ne_nil hne
  refine ⟨x, ?_, ?_⟩
  · rw [rowsFrom_of_lt hc, hrw]
    rfl
  · change ((c.rows.map Prod.fst).head?).getD default = x.1
    rw [hrw]
    rfl

theorem no_next (hnx : (refsOf F chunks)[m]? = none) : rowsFrom chunks m = [] := by
  apply rowsFrom_of_le
  rw [getElem?_eq_none_iff] at hnx
  unfold refsOf at hnx
  rwa [length_map] at hnx

structure Moved (chunks : List EntryMap) (s : Cursor) (x : Option Item) (oldLast : Bool)
    (s' : Cursor) : Prop where
  stream : s.stream chunks = x.toList ++ s'.stream chunks
  place : s'.m = s.m
  suffix : s'.changes <:+ s.changes
  fewer : s'.cur.length + s'.changes.length < s.cur.length + s.changes.length
  last : oldLast → s'.cur = []
  rest_sub : s'.rest chunks <:+ s.rest chunks
  above_rest : ∀ y ∈ x, ∀ r ∈ s'.rest chunks, y.1 < r.1
  above_changes : ∀ y ∈ x, ∀ c ∈ s'.changes, y.1 < c.1
  from_rest : ∀ y ∈ x, y ∈ s.rest chunks ∨ (y.1, some y.2) ∈ s.changes

def Step.item : Step → Option Item
  | .key path e _ => some (path, e)
  | .skip | .done => none

def Step.last : Step → Bool
  | .key _ _ oldLast => oldLast
  | _ => false

variable {s : Cursor} {c : Str × Option LeanEntry}

theorem Moved.changeStep {s' : Cursor} {oldLast : Bool}
    (h : Moved chunks s (c.2.map fun e => (c.1, e)) oldLast s') :
    Syncer.changeStep c oldLast ≠ .done ∧
      Moved chunks s (Syncer.changeStep c oldLast).item (Syncer.changeStep c oldLast).last s' := by
  obtain ⟨p, _ | e⟩ := c
  · exact ⟨Step.noConfusion, { h with last := fun hla => absurd hla Bool.false_ne_true }⟩
  · exact ⟨Step.noConfusion, h⟩

theorem mem_changed {y : Item} (hy : y ∈ c.2.map fun e => (c.1, e)) :
    y.1 = c.1 ∧ (y.1, some y.2) = c := by
  obtain ⟨e, he, rfl⟩ := map_eq_some_iff.mp hy
  exact ⟨rfl, by rw [← he]⟩

variable {run : List Item}

theorem moved_change (hs : s.Sorted chunks run) {tail : List (Str × Option LeanEntry)}
    (hchs : s.changes = c :: tail) (hbel : ∀ x ∈ (s.rest chunks).head?, c.1 < x.1) :
    Moved chunks s (c.2.map fun e => (c.1, e)) false { s with changes := tail } := by
  have hsrt := hs.changes
  rw [hchs, pairwise_cons] at hsrt
  have habv := lt_of_lt_head hs.rest hbel
  refine ⟨?_, rfl, ?_, ?_, (by simp), suffix_rfl, ?_, ?_, ?_⟩
  · change patchRows (s.rest chunks) s.changes = _ ++ patchRows (s.rest chunks) tail
    rw [hchs]
    cases hrs : s.rest chunks with
    | nil => rw [patchRows]
    | cons y l =>
      rw [patchRows, if_pos (habv y (by rw [hrs]; exact .head _))]
  · rw [hchs]
    exact suffix_cons c tail
  · rw [hchs, length_cons]
    dsimp only
    omega
  · intro y hy x hx
    rw [(mem_changed hy).1]
    exact habv x hx
  · intro y hy c' hc'
    rw [(mem_changed hy).1]
    exact hsrt.1 c' hc'
  · intro y hy
    rw [(mem_changed hy).2, hchs]
    exact .inr (.head _)

theorem moved_old (hs : s.Sorted chunks run) {x : Item} {rest : List Item}
    (hcur : s.cur = x :: rest) (hbel : ∀ c ∈ s.changes.head?, x.1 < c.1) :
    Moved chunks s (some x) rest.isEmpty { s with cur := rest } := by
  have hrs : s.rest chunks = x :: ({ s with cur := rest } : Cursor).rest chunks := by
    unfold Cursor.rest
    rw [hcur]
    rfl
  have hsrt := hs.rest
  rw [hrs, pairwise_cons] at hsrt
  have habv := lt_of_lt_head hs.changes hbel
  refine ⟨?_, rfl, suffix_rfl, ?_, (fun h => List.isEmpty_iff.mp h), ?_, ?_, ?_, ?_⟩
  · change patchRows (s.rest chunks) s.changes =
      x :: patchRows (({ s with cur := rest } : Cursor).rest chunks) s.changes
    rw [hrs]
    cases hchs : s.changes with
    | nil => rw [patchRows, patchRows]
    | cons c tail =>
      have hlt : x.1 < c.1 := habv c (by rw [hchs]; exact .head _)
      rw [patchRows, if_neg hlt.not_gt, if_neg hlt.ne']
  · rw [hcur, length_cons]
    dsimp only
    omega
  · rw [hrs]
    exact suffix_cons x _
  · intro y hy r hr
    rw [← mem_some_iff.mp hy]
    exact hsrt.1 r hr
  · intro y hy c hc
    rw [← mem_some_iff.mp hy]
    exact habv c hc
  · intro y hy
    rw [← mem_some_iff.mp hy, hrs]
    exact .inl (.head _)

theorem moved_replace (hs : s.Sorted chunks run) {x : Item} {rest : List Item}
    (hcur : s.cur = x :: rest) {tail : List (Str × Option LeanEntry)}
    (hchs : s.changes = c :: tail) (heq : c.1 = x.1) :
    Moved chunks s (c.2.map fun e => (c.1, e)) rest.isEmpty
      { s with cur := rest, changes := tail } := by
  have hrs : s.rest chunks =
      x :: ({ s with cur := rest, changes := tail } : Cursor).rest chunks := by
    unfold Cursor.rest
    rw [hcur]
    rfl
  have hsrt := hs.rest
  rw [hrs, pairwise_cons] at hsrt
  have hsrt' := hs.changes
  rw [hchs, pairwise_cons] at hsrt'
  refine ⟨?_, rfl, ?_, ?_, (fun h => List.isEmpty_iff.mp h), ?_, ?_, ?_, ?_⟩
  · change patchRows (s.rest chunks) s.changes = _ ++ patchRows
      (({ s with cur := rest, changes := tail } : Cursor).rest chunks) tail
    rw [hrs, hchs, patchRows, if_neg heq.not_lt, if_pos heq]
  · rw [hchs]
    exact suffix_cons c tail
  · rw [hcur, hchs, length_cons, length_cons]
    dsimp only
    omega
  · rw [hrs]
    exact suffix_cons x _
  · intro y hy r hr
    rw [(mem_changed hy).1, heq]
    exact hsrt.1 r hr
  · intro y hy c' hc'
    rw [(mem_changed hy).1]
    exact hsrt'.1 c' hc'
  · intro y hy
    rw [(mem_changed hy).2, hchs]
    exact .inr (.head _)

theorem change_below (hcks : Ordered chunks) (h : s.change (refsOf F chunks) = some c) :
    (∃ tail, s.changes = c :: tail) ∧ ∀ x ∈ (rowsFrom chunks (s.m + 1)).head?, c.1 < x.1 := by
  unfold Cursor.change at h
  obtain ⟨hhd, hbel⟩ := filter_eq_some_iff.mp h
  refine ⟨head?_eq_some_iff.mp hhd, fun x hx => ?_⟩
  cases hnx : (refsOf F chunks)[s.m + 1]? with
  | none =>
    rw [no_next hnx] at hx
    cases hx
  | some ref =>
    obtain ⟨y, hy, hfst⟩ := first_of_next hcks hnx
    obtain rfl : x = y := mem_unique hx hy
    rw [hnx] at hbel
    rw [← hfst]
    simpa using hbel

theorem next_le_change {old : List ChunkRef} (h : s.change old = none) :
    ∀ c ∈ s.changes.head?, ∃ next, old[s.m + 1]? = some next ∧ next.first ≤ c.1 := by
  intro c hc
  have hall := filter_eq_none_iff.mp h c hc
  cases hnx : old[s.m + 1]? with
  | none =>
    rw [hnx] at hall
    exact absurd rfl hall
  | some next =>
    rw [hnx] at hall
    exact ⟨next, rfl, by simpa using hall⟩

theorem Ordered.next_spec (hcks : Ordered chunks) (hs : s.Sorted chunks run)
    (hstay : ¬(s.cur = [] ∧ s.change (refsOf F chunks) = none ∧ s.m + 1 < chunks.length)) :
    (s.next (refsOf F chunks) = (.done, s) ∧ s.rest chunks = [] ∧ s.changes = []) ∨
    ((s.next (refsOf F chunks)).1 ≠ .done ∧
      Moved chunks s (s.next (refsOf F chunks)).1.item (s.next (refsOf F chunks)).1.last
        (s.next (refsOf F chunks)).2) := by
  cases hch : s.change (refsOf F chunks) with
  | none =>
    have hlat := next_le_change hch
    cases hcur : s.cur with
    | nil =>
      left
      have hla : chunks.length ≤ s.m + 1 := not_lt.mp fun h => hstay ⟨hcur, hch, h⟩
      have hno : (refsOf F chunks)[s.m + 1]? = none := by
        rw [getElem?_eq_none_iff, refsOf, length_map]
        exact hla
      refine ⟨?_, ?_, ?_⟩
      · unfold Cursor.next
        rw [hcur, hch]
      · rw [Cursor.rest, hcur, rowsFrom_of_le hla, nil_append]
      · cases hchs : s.changes with
        | nil => rfl
        | cons c tail =>
          obtain ⟨next, hnx, -⟩ := hlat c (by rw [hchs]; rfl)
          rw [hno] at hnx
          cases hnx
    | cons x rest =>
      right
      have hst : s.next (refsOf F chunks) =
          (.key x.1 x.2 rest.isEmpty, { s with cur := rest }) := by
        unfold Cursor.next
        rw [hcur, hch]
      rw [hst]
      refine ⟨Step.noConfusion, moved_old hs hcur fun c hc => ?_⟩
      obtain ⟨next, hnx, hle⟩ := hlat c hc
      obtain ⟨y, hy, hfst⟩ := first_of_next hcks hnx
      -- the next chunk begins above the entries of this one
      have hsrt := hs.rest
      rw [Cursor.rest, hcur, pairwise_append] at hsrt
      have hxy : x.1 < y.1 := hsrt.2.2 x (.head _) y (mem_of_mem_head? hy)
      exact hxy.trans_le (hfst ▸ hle)
  | some c =>
    right
    obtain ⟨⟨tail, hchs⟩, hbel⟩ := change_below hcks hch
    have htl : s.changes.tail = tail := by rw [hchs, tail_cons]
    cases hcur : s.cur with
    | nil =>
      have hst : s.next (refsOf F chunks) = (changeStep c false, { s with changes := tail }) := by
        unfold Cursor.next
        rw [hcur, hch, ← htl]
      rw [hst]
      refine Moved.changeStep (moved_change hs hchs ?_)
      rw [Cursor.rest, hcur, nil_append]
      exact hbel
    | cons x rest =>
      have hhd : (s.rest chunks).head? = some x := by
        rw [Cursor.rest, hcur]
        rfl
      obtain hlt | heq | hgt := lt_trichotomy c.1 x.1
      · have hst : s.next (refsOf F chunks) = (changeStep c false, { s with changes := tail }) := by
          unfold Cursor.next
          rw [hcur, hch, ← htl]
          exact if_pos hlt
        rw [hst]
        refine Moved.changeStep (moved_change hs hchs fun y hy => ?_)
        rw [← mem_unique hhd hy]
        exact hlt
      · have hst : s.next (refsOf F chunks) =
            (changeStep c rest.isEmpty, { s with cur := rest, changes := tail }) := by
          unfold Cursor.next
          rw [hcur, hch, ← htl]
          exact (if_neg heq.not_lt).trans (if_pos heq)
        rw [hst]
        exact Moved.changeStep (moved_replace hs hcur hchs heq)
      · have hst : s.next (refsOf F chunks) =
            (.key x.1 x.2 rest.isEmpty, { s with cur := rest }) := by
          unfold Cursor.next
          rw [hcur, hch]
          exact (if_neg hgt.not_gt).trans (if_neg hgt.ne')
        rw [hst]
        refine ⟨Step.noConfusion, moved_old hs hcur fun c' hc' => ?_⟩
        rw [hchs] at hc'
        rw [← mem_some_iff.mp hc']
        exact hgt

end Rechunk

end Flint.Syncer
