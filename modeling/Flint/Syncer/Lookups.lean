import Flint.Basic.Outcome
import Flint.Syncer.Rechunk
import Flint.Syncer.View

/-!
# A view answers as the document does

A document is stored in chunks when the bucket has the body of each chunk at its address and the
decoder gives the chunk back (`StoredAs`). A view sees the document when its list is the list of
these chunks and what it and the process's cache have kept is right (`DocView.Sees`).
-/

namespace Flint.Syncer

open SortedMap DocView Answers List Nat

variable {C : ViewCfg} {theirs : LeanManifest} {chunks : List EntryMap}

def ViewCfg.addressOf (C : ViewCfg) (c : EntryMap) : Str :=
  C.format.chunkAddress (C.format.encode c)

structure StoredAs (C : ViewCfg) (theirs : LeanManifest) (chunks : List EntryMap) : Prop where
  ordered : Ordered chunks
  rows : (chunks.map KeyedTable.rows).flatten = theirs.entries.rows
  body : ∀ c ∈ chunks, C.bucket (C.addressOf c) = some (C.format.encode c)
  decodes : ∀ c ∈ chunks, C.decode (C.format.encode c) = some c

structure DocView.Sees (C : ViewCfg) (theirs : LeanManifest) (chunks : List EntryMap)
    (v : DocView) : Prop where
  refs : v.refs = refsOf C.format chunks
  seq : v.seq = theirs.seq
  tombstones : v.tombstones = theirs.tombstones
  parsed : ∀ i c, v.parsed.get? i = some c → chunks[i]? = some c
  aliases : ∀ c ∈ chunks, ∀ l, v.aliasCache.get? (C.addressOf c) = some l →
    ∀ a, a ∈ l ↔ a ∈ aliasesIn C.root c

/-! ### Reading a chunk -/

variable {i : ℕ} {c : EntryMap}

theorem refs_at (hc : chunks[i]? = some c) :
    (refsOf C.format chunks)[i]? = some ⟨C.addressOf c, firstKey c, c.rows.length⟩ := by
  unfold refsOf
  rw [getElem?_map, hc]
  rfl

theorem Ordered.lt_of_index (hcks : Ordered chunks) {j : ℕ} (hij : i < j) {d : EntryMap}
    (hc : chunks[i]? = some c) (hd : chunks[j]? = some d) :
    ∀ x ∈ c.rows, ∀ y ∈ d.rows, x.1 < y.1 := by
  have hpairs := (pairwise_flatten.mp hcks.sorted).2
  rw [pairwise_map, pairwise_iff_getElem] at hpairs
  obtain ⟨hi, rfl⟩ := List.getElem?_eq_some_iff.mp hc
  obtain ⟨hj, rfl⟩ := List.getElem?_eq_some_iff.mp hd
  exact hpairs i j hi hj hij

theorem firstKey_spec (hc : c.rows ≠ []) :
    c.keys.head? = some (firstKey c) ∧ (∃ x ∈ c.rows, firstKey c = x.1) ∧
      ∀ x ∈ c.rows, firstKey c ≤ x.1 := by
  obtain ⟨x, l, hrw⟩ := exists_cons_of_ne_nil hc
  have hks : c.keys.head? = some x.1 := by
    rw [SortedMap.keys, hrw]
    rfl
  have hfst : firstKey c = x.1 := by
    rw [firstKey, hks]
    rfl
  have hsrt := c.sorted
  rw [hrw] at hsrt
  refine ⟨hfst ▸ hks, ⟨x, hrw ▸ (.head _), hfst⟩, ?_⟩
  rw [hrw, hfst]
  exact forall_mem_cons.mpr ⟨le_rfl, fun y hy => ((pairwise_cons.mp hsrt).1 y hy).le⟩

theorem parseChunk_eq (h : StoredAs C theirs chunks) (hc : chunks[i]? = some c) :
    parseChunk C.decode (refsOf C.format chunks) i (C.format.encode c) = .ok c := by
  have hmem : c ∈ chunks := mem_of_getElem? hc
  have hne := h.ordered.nonempty c hmem
  obtain ⟨hhd, -, -⟩ := firstKey_spec hne
  have hla : c.keys.getLast? = some ((c.rows.getLast hne).1) := by
    rw [SortedMap.keys, getLast?_map, getLast?_eq_some_getLast hne]
    rfl
  unfold parseChunk
  rw [refs_at hc]
  dsimp only
  rw [h.decodes c hmem]
  dsimp only
  rw [if_neg (not_not.mpr rfl), hhd, hla]
  dsimp only
  rw [if_neg (not_not.mpr rfl)]
  cases hnx : (refsOf C.format chunks)[i + 1]? with
  | none => rfl
  | some next =>
    -- the next chunk begins above the last path of this one
    have hnx' := hnx
    rw [refsOf, getElem?_map, Option.map_eq_some_iff] at hnx'
    obtain ⟨d, hd, rfl⟩ := hnx'
    obtain ⟨-, ⟨y, hy, hfst⟩, -⟩ := firstKey_spec (h.ordered.nonempty d (mem_of_getElem? hd))
    have hlt := h.ordered.lt_of_index (lt_succ_self i) hc hd _ (getLast_mem hne) y hy
    rw [← hfst] at hlt
    exact if_neg hlt.not_ge

theorem fetchBody_eq (h : StoredAs C theirs chunks) (hc : c ∈ chunks) (hole : ViewError) :
    fetchBody C (C.addressOf c) hole = .ok (C.format.encode c) := by
  unfold fetchBody
  rw [h.body c hc]
  exact if_neg (not_not.mpr rfl)

theorem get?_orInsert {K V : Type} [LinearOrder K] (m : SortedMap K V) (k k' : K) (v : V) :
    (orInsert m k v).get? k' = if k' = k then some ((m.get? k).getD v) else m.get? k' := by
  unfold orInsert
  cases hk : m.get? k with
  | none =>
    rw [if_neg (by simp), get?_insert]
    rfl
  | some w =>
    rw [if_pos (by simp)]
    split
    · next heq => rw [heq, hk, Option.getD_some]
    · rfl

def DocView.withChunk (C : ViewCfg) (v : DocView) (i : ℕ) (c : EntryMap) : DocView :=
  { v with
    aliasCache := orInsert v.aliasCache (C.addressOf c) (aliasesIn C.root c)
    chunksRead := v.chunksRead + 1
    parsed := v.parsed.insert i c }

variable {v : DocView} (h : StoredAs C theirs chunks)

include h

theorem readChunk_eq (hv : v.Sees C theirs chunks)
    (hc : chunks[i]? = some c) : readChunk C i v = .ok (c, v.withChunk C i c) := by
  unfold readChunk
  rw [hv.refs, refs_at hc]
  dsimp only
  rw [fetchBody_eq h (mem_of_getElem? hc)]
  rw [Outcome.ok_bind, parseChunk_eq h hc, ← hv.refs]
  rfl

theorem DocView.Sees.withChunk (hv : v.Sees C theirs chunks)
    (hc : chunks[i]? = some c) : (v.withChunk C i c).Sees C theirs chunks where
  refs := hv.refs
  seq := hv.seq
  tombstones := hv.tombstones
  parsed := by
    intro j d hd
    change (v.parsed.insert i c).get? j = some d at hd
    rw [get?_insert] at hd
    split at hd
    · next heq =>
      rw [heq, ← Option.some.inj hd]
      exact hc
    · exact hv.parsed j d hd
  aliases := by
    intro d hd l hl
    change (orInsert v.aliasCache (C.addressOf c) (aliasesIn C.root c)).get? (C.addressOf d) =
      some l at hl
    rw [get?_orInsert] at hl
    split at hl
    · next heq =>
      have hcmem : c ∈ chunks := mem_of_getElem? hc
      have hbody : C.format.encode d = C.format.encode c := by
        have hd' := h.body d hd
        rw [heq, h.body c hcmem] at hd'
        exact (Option.some.inj hd').symm
      obtain rfl : d = c := by
        have hd' := h.decodes d hd
        rw [hbody, h.decodes c hcmem] at hd'
        exact (Option.some.inj hd').symm
      cases hkp : v.aliasCache.get? (C.addressOf d) with
      | none =>
        rw [hkp] at hl
        rw [← Option.some.inj hl]
        exact fun a => Iff.rfl
      | some l' =>
        rw [hkp] at hl
        rw [← Option.some.inj hl]
        exact hv.aliases d hd l' hkp
    · exact hv.aliases d hd l hl

theorem readChunk_answers (hc : chunks[i]? = some c) :
    Answers (Sees C theirs chunks) (readChunk C i) c :=
  fun _ hv => ⟨c, _, readChunk_eq h hv hc, rfl, hv.withChunk h hc⟩

theorem chunk_answers (hc : chunks[i]? = some c) :
    Answers (Sees C theirs chunks) (chunk C i) c := by
  refine Ensures.get_bind fun v hv => ?_
  cases hkp : v.parsed.get? i with
  | none => exact readChunk_answers h hc v hv
  | some d =>
    have hd := hv.parsed i d hkp
    exact ⟨d, v, rfl, Option.mem_unique hd hc, hv⟩

theorem readChunks_spec {want : List ℕ}
    (hwant : ∀ i ∈ want, i < chunks.length) (hv : v.Sees C theirs chunks) :
    ∃ v', readChunks C want v = .ok ((), v') ∧ v'.Sees C theirs chunks ∧
      ∀ i, (v.parsed.get? i).isSome ∨ i ∈ want → (v'.parsed.get? i).isSome := by
  induction want generalizing v with
  | nil => exact ⟨v, rfl, hv, fun i hi => hi.resolve_right not_mem_nil⟩
  | cons j want ih =>
    obtain ⟨hj, hwant⟩ := forall_mem_cons.mp hwant
    have hc : chunks[j]? = some chunks[j] := getElem?_eq_getElem hj
    obtain ⟨v', hrun, hv', hrd⟩ := ih hwant (hv.withChunk h hc)
    refine ⟨v', ?_, hv', fun i hi => hrd i ?_⟩
    · have hfst := readChunk_eq h hv hc
      have hst : readChunks C (j :: want) = readChunk C j >>= fun _ => readChunks C want := by
        change ((readChunk C j >>= fun _ => pure PUnit.unit) >>= fun _ => readChunks C want) = _
        rw [bind_assoc]
        rfl
      rw [hst]
      change (readChunk C j v >>= fun r => readChunks C want r.2) = _
      rw [hfst]
      exact hrun
    · change ((v.parsed.insert j chunks[j]).get? i).isSome ∨ i ∈ want
      rw [get?_insert]
      split
      · exact .inl rfl
      · next hne => exact hi.imp_right fun hmem => (mem_cons.mp hmem).resolve_left hne

omit h

variable {p : Str}

theorem home_lt (hne : chunks ≠ []) : home (refsOf C.format chunks) p < chunks.length := by
  have hle : ((refsOf C.format chunks).takeWhile fun r => decide (r.first ≤ p)).length ≤
      (refsOf C.format chunks).length := (List.takeWhile_prefix _).length_le
  have hlen : (refsOf C.format chunks).length = chunks.length := by rw [refsOf, length_map]
  have hpos := length_pos_of_ne_nil hne
  unfold home
  omega

/-! ### Lookups -/

theorem StoredAs.mem_iff (h : StoredAs C theirs chunks) {x : Item} :
    x ∈ theirs.entries ↔ ∃ (i : ℕ) (c : EntryMap), chunks[i]? = some c ∧ x ∈ c.rows := by
  change x ∈ theirs.entries.rows ↔ _
  rw [← h.rows, mem_flatten]
  constructor
  · rintro ⟨l, hl, hx⟩
    obtain ⟨c, hc, rfl⟩ := mem_map.mp hl
    obtain ⟨i, hi⟩ := mem_iff_getElem?.mp hc
    exact ⟨i, c, hi, hx⟩
  · rintro ⟨i, c, hc, hx⟩
    exact ⟨c.rows, mem_map_of_mem (mem_of_getElem? hc), hx⟩

theorem home_of_mem (hcks : Ordered chunks) (hc : chunks[i]? = some c) {x : Item}
    (hx : x ∈ c.rows) : home (refsOf C.format chunks) x.1 = i := by
  have hne := hcks.nonempty c (mem_of_getElem? hc)
  have hfst : firstKey c ≤ x.1 := (firstKey_spec hne).2.2 x hx
  rcases lt_trichotomy (home (refsOf C.format chunks) x.1) i with hlt | heq | hgt
  · -- the chunk would begin above the path
    have := lt_first_of_home hcks.firsts hlt (refs_at (C := C) hc)
    exact absurd hfst this.not_ge
  · exact heq
  · -- the path would be below its home
    obtain ⟨r, hr, hle⟩ := first_le_of_home (zero_lt_of_lt hgt)
    obtain ⟨d, hd, rfl⟩ : ∃ d, chunks[home (refsOf C.format chunks) x.1]? = some d ∧
        (encodeChunk C.format (firstKey d) d).1 = r := by
      rwa [refsOf, getElem?_map, Option.map_eq_some_iff] at hr
    obtain ⟨-, ⟨y, hy, hdy⟩, -⟩ := firstKey_spec (hcks.nonempty d (mem_of_getElem? hd))
    have hlt := hcks.lt_of_index hgt hc hd x hx y hy
    rw [← hdy] at hlt
    exact absurd hle hlt.not_ge

theorem get?_of_home (h : StoredAs C theirs chunks)
    (hc : chunks[home (refsOf C.format chunks) p]? = some c) :
    c.get? p = theirs.entries.get? p := by
  apply Option.ext
  intro e
  rw [get?_eq_some, get?_eq_some, h.mem_iff]
  constructor
  · intro hmem
    exact ⟨_, c, hc, hmem⟩
  · rintro ⟨i, d, hd, hmem⟩
    obtain rfl : home (refsOf C.format chunks) p = i := home_of_mem h.ordered hd hmem
    rw [hd] at hc
    rw [← Option.some.inj hc]
    exact hmem

theorem StoredAs.get?_of_nil (h : StoredAs C theirs []) (p : Str) :
    theirs.entries.get? p = none := by
  rw [get?_eq_none]
  intro e hmem
  obtain ⟨i, c, hc, -⟩ := h.mem_iff.mp hmem
  cases hc

theorem get_answers (h : StoredAs C theirs chunks) (p : Str) :
    Answers (Sees C theirs chunks) (get C p) (theirs.entries.get? p) := by
  refine Ensures.get_bind fun v hv => ?_
  by_cases hne : chunks = []
  · subst hne
    refine ⟨none, v, ?_, (h.get?_of_nil p).symm, hv⟩
    rw [if_pos (by rw [hv.refs]; rfl)]
    rfl
  · have hlt := home_lt (C := C) (p := p) hne
    have hc := getElem?_eq_getElem hlt
    rw [if_neg (by rw [hv.refs]; simpa [refsOf] using hne), hv.refs, ← get?_of_home h hc]
    exact bind (f := fun c => pure (c.get? p)) (chunk_answers h hc) (pure _) v hv

/-! ### The first path with a prefix -/

def wanted (p : Str) (skip : Str → Bool) (k : Str) : Bool := k.startsWith p && !skip k

variable {skip : Str → Bool}

theorem find?_wanted_eq_none {k : Str} (hle : p ≤ k) (hk : k.startsWith p ≠ true) {l : List Str}
    (hl : ∀ s ∈ l, k ≤ s) : l.find? (wanted p skip) = none := by
  rw [find?_eq_none]
  intro s hs hwanted
  have hlt := Str.lt_of_not_startsWith hle hk (Bool.and_eq_true_iff.mp hwanted).1
  exact absurd (hl s hs) hlt.not_ge

theorem scanUnder_find {keys rest : List Str} (hsrt : (keys ++ rest).Pairwise (· < ·))
    (hp : ∀ k ∈ keys, p ≤ k) :
    (keys ++ rest).find? (wanted p skip) =
      (scanUnder p skip keys).getD (rest.find? (wanted p skip)) := by
  induction keys with
  | nil => rfl
  | cons k keys ih =>
    obtain ⟨hk, hks⟩ := forall_mem_cons.mp hp
    rw [cons_append, pairwise_cons] at hsrt
    obtain ⟨habv, hsrt⟩ := hsrt
    rw [cons_append, scanUnder]
    by_cases hsts : k.startsWith p
    · rw [if_pos hsts]
      by_cases hskip : skip k
      · rw [if_pos hskip, find?_cons_of_neg (by simp [wanted, hskip])]
        exact ih hsrt hks
      · rw [if_neg hskip, find?_cons_of_pos (by simp [wanted, hsts, hskip])]
        rfl
    · rw [if_neg hsts]
      exact find?_wanted_eq_none hk hsts (forall_mem_cons.mpr ⟨le_rfl, fun s hs => (habv s hs).le⟩)

def keysFrom (chunks : List EntryMap) (i : ℕ) : List Str := (rowsFrom chunks i).map Prod.fst

theorem Ordered.keysFrom_sorted (hcks : Ordered chunks) (i : ℕ) :
    (keysFrom chunks i).Pairwise (· < ·) := pairwise_map.mpr (hcks.rowsFrom_sorted i)

theorem keysFrom_of_lt (hc : chunks[i]? = some c) :
    keysFrom chunks i = c.keys ++ keysFrom chunks (i + 1) := by
  unfold keysFrom
  rw [rowsFrom_of_lt hc, map_append]
  rfl

theorem find?_keysFrom (hcks : Ordered chunks) (hc : chunks[i]? = some c) :
    (keysFrom chunks i).find? (wanted p skip) =
      (scanUnder p skip (c.keys.filter fun k => decide (p ≤ k))).getD
        ((keysFrom chunks (i + 1)).find? (wanted p skip)) := by
  have hsrt := hcks.keysFrom_sorted i
  rw [keysFrom_of_lt hc] at hsrt ⊢
  have hsub := (filter_sublist (p := fun k => decide (p ≤ k)) (l := c.keys)).append_right
    (keysFrom chunks (i + 1))
  have hfil : (c.keys.filter fun k => decide (p ≤ k)).find? (wanted p skip) =
      c.keys.find? (wanted p skip) := by
    rw [find?_filter]
    congr 1
    funext k
    by_cases hw : wanted p skip k
    · have hle := Str.le_of_startsWith (Bool.and_eq_true_iff.mp hw).1
      simp [hw, hle]
    · simp [hw]
  rw [← scanUnder_find (hsrt.sublist hsub)
    (fun k hk => of_decide_eq_true (mem_filter.mp hk).2), find?_append,
    find?_append, hfil]

theorem find?_of_first (hcks : Ordered chunks) (hc : chunks[i]? = some c)
    (hhome : home (refsOf C.format chunks) p < i) (hfst : (firstKey c).startsWith p ≠ true) :
    (keysFrom chunks i).find? (wanted p skip) = none := by
  have hlt : p < firstKey c := lt_first_of_home hcks.firsts hhome (refs_at hc)
  obtain ⟨-, ⟨x, hx, hkey⟩, hle⟩ :=
    firstKey_spec (hcks.nonempty c (mem_of_getElem? hc))
  refine find?_wanted_eq_none hlt.le hfst fun s hs => ?_
  have hsrt := hcks.keysFrom_sorted i
  rw [keysFrom_of_lt hc] at hs hsrt
  rcases mem_append.mp hs with hs | hs
  · obtain ⟨y, hy, rfl⟩ := mem_map.mp hs
    exact hle y hy
  · have hmem : firstKey c ∈ c.keys := hkey ▸ mem_map_of_mem hx
    exact ((pairwise_append.mp hsrt).2.2 _ hmem s hs).le

theorem firstUnderFrom_answers (h : StoredAs C theirs chunks) (p : Str) (skip : Str → Bool)
    (n i : ℕ) (hn : i + n = chunks.length) :
    Answers (Sees C theirs chunks) (firstUnderFrom C p skip n i)
      ((keysFrom chunks i).find? (wanted p skip)) := by
  induction n generalizing i with
  | zero =>
    have hle : chunks.length ≤ i := le_of_eq hn.symm
    rw [keysFrom, rowsFrom_of_le hle]
    exact pure none
  | succ n ih =>
    have hlt : i < chunks.length := by omega
    have hc : chunks[i]? = some chunks[i] := getElem?_eq_getElem hlt
    refine Ensures.get_bind fun v hv => ?_
    rw [hv.refs]
    split
    · next hsp =>
      obtain ⟨hhome, hfst⟩ := hsp
      rw [refs_at hc] at hfst
      have hfst' : (firstKey chunks[i]).startsWith p ≠ true := by simpa using hfst
      exact ⟨none, v, rfl, (find?_of_first h.ordered hc hhome hfst').symm, hv⟩
    · refine bind (chunk_answers h hc) ?_ v hv
      rw [find?_keysFrom h.ordered hc]
      cases scanUnder p skip (chunks[i].keys.filter fun k => decide (p ≤ k)) with
      | none => exact ih (i + 1) (by omega)
      | some found => exact pure found

theorem StoredAs.keys (h : StoredAs C theirs chunks) : theirs.entries.keys = keysFrom chunks 0 := by
  unfold SortedMap.keys keysFrom rowsFrom
  rw [drop_zero, h.rows]

theorem find?_from_home (hcks : Ordered chunks) :
    (keysFrom chunks 0).find? (wanted p skip) =
      (keysFrom chunks (home (refsOf C.format chunks) p)).find? (wanted p skip) := by
  rcases Nat.eq_zero_or_pos (home (refsOf C.format chunks) p) with hz | hpos
  · rw [hz]
  · obtain ⟨r, hr, hle⟩ := first_le_of_home hpos
    obtain ⟨x, hx, hfst⟩ := first_of_next hcks hr
    have hsrt := hcks.rowsFrom_sorted 0
    rw [rowsFrom_eq_append (zero_le (home (refsOf C.format chunks) p))] at hsrt
    have hbel := (pairwise_append.mp hsrt).2.2
    unfold keysFrom
    rw [rowsFrom_eq_append (zero_le (home (refsOf C.format chunks) p)), map_append,
      find?_append, Option.or_eq_right_of_none]
    rw [find?_eq_none]
    intro s hs hwanted
    obtain ⟨y, hy, rfl⟩ := mem_map.mp hs
    -- the path is below the chunk, which begins at or below the prefix
    have hlt : y.1 < p := calc
      y.1 < x.1 := hbel y hy x (mem_of_mem_head? hx)
      _ = r.first := hfst.symm
      _ ≤ p := hle
    exact absurd (Str.le_of_startsWith (Bool.and_eq_true_iff.mp hwanted).1) hlt.not_ge

theorem firstUnder_answers (h : StoredAs C theirs chunks) (p : Str) (skip : Str → Bool) :
    Answers (Sees C theirs chunks) (firstUnder C p skip)
      (theirs.entries.keys.find? (wanted p skip)) := by
  refine Ensures.get_bind fun v hv => ?_
  rw [h.keys]
  by_cases hne : chunks = []
  · subst hne
    rw [if_pos (by rw [hv.refs]; rfl)]
    exact ⟨none, v, rfl, rfl, hv⟩
  · have hlen : (refsOf C.format chunks).length = chunks.length := by rw [refsOf, length_map]
    have hlt := home_lt (C := C) (p := p) hne
    rw [if_neg (by rw [hv.refs]; simpa [refsOf] using hne), hv.refs, hlen]
    rw [find?_from_home (C := C) h.ordered]
    exact firstUnderFrom_answers h p skip _ _ (by omega) v hv

end Flint.Syncer
