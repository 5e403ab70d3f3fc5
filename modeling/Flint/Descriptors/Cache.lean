import Flint.Basic.Dict
import Flint.Basic.Outcome
import Flint.Basic.Str
import Flint.Locking.Manager

/-!
# The cache of open descriptors

`FdCache` keeps the open file of a stateid, with lists of the stateids of each path and each inode
and the tick of the last use of each entry. An insert mints a lease and hands it to the record of
the stateid, if there is one. A lease that is dropped removes the entry of the stateid. So the
second insert under a record loses its entry (`second_insert_lost`); an insert loses it in no other
way.
-/

namespace Flint.Descriptors

open Function Index Dict Outcome List
open Locking (Other mintedTag)

structure CachedFile where
  file : ℕ
  path : Str
  writable : Bool
  ino : UInt64
deriving DecidableEq

namespace CachedFile

def pathKey (e : CachedFile) : Option Str := some e.path

/-- Inode 0 stands for an unknown one, which is not indexed. -/
def inoKey (e : CachedFile) : Option UInt64 := if e.ino = 0 then none else some e.ino

end CachedFile

structure FdBudget where
  hiwat : ℕ
  lowat : ℕ
  lt : lowat < hiwat

/-- `order` has the stateids by the ticks of their last use. -/
structure FdCache where
  byStateid : Dict Other CachedFile
  byPath : Str → List Other
  byIno : UInt64 → List Other
  order : List Other

namespace FdCache

variable (c : FdCache)

def touched (other : Other) : List Other := c.order.filter (· ≠ other) ++ [other]

/-- `get` answers with `c.byStateid.get? other`, and a hit is a use. -/
def get (other : Other) : FdCache :=
  if (c.byStateid.get? other).isSome then { c with order := c.touched other } else c

def remove (other : Other) : FdCache :=
  match c.byStateid.get? other with
  | none => c
  | some removed =>
    { byStateid := c.byStateid.erase other
      order := c.order.filter (· ≠ other)
      byPath := unindex c.byPath removed.pathKey other
      byIno := unindex c.byIno removed.inoKey other }

/-- `insert` up to the lease. -/
def put (other : Other) (entry : CachedFile) : FdCache where
  byStateid := c.byStateid.insert other entry
  order := c.touched other
  byPath := reindex c.byPath (c.byStateid.trait CachedFile.pathKey other) entry.pathKey other
  byIno := reindex c.byIno (c.byStateid.trait CachedFile.inoKey other) entry.inoKey other

def reapToLowat (b : FdBudget) : FdCache :=
  if c.byStateid.size ≤ b.hiwat then c
  else (c.order.take (c.byStateid.size - b.lowat)).foldl remove c

def evict (p : CachedFile → Bool) (c : FdCache) (id : Other) : FdCache :=
  if (c.byStateid.get? id).any p then (c.get id).remove id else c.get id

def evictByPath (path : Str) : FdCache := (c.byPath path).foldl (evict (·.path = path)) c

def evictByIno (ino : UInt64) : FdCache :=
  if ino = 0 then c else (c.byIno ino).foldl (evict (·.ino = ino)) c

def evictLockFdsFor (path : Str) (ino : UInt64) : FdCache :=
  ((c.byStateid.toList.filter fun e => e.1.hi = mintedTag &&
    (e.2.path = path || ino ≠ 0 && e.2.ino = ino)).map Prod.fst).foldl remove c

end FdCache

/-- The cache and the state records, each with whether it holds a lease. -/
structure Server where
  cache : FdCache
  states : Dict Other Bool
  owned : Other → Bool

namespace Server

/-- The lease is disarmed if there is no record, and takes the place of the one the record has. -/
def attachFdLease (s : Server) (other : Other) : Server :=
  match s.states.get? other with
  | none => s
  | some held =>
    { s with
      states := s.states.insert other true
      cache := if held then s.cache.remove other else s.cache }

def insert (b : FdBudget) (s : Server) (other : Other) (entry : CachedFile) : Server :=
  let s' := attachFdLease { s with cache := s.cache.put other entry } other
  { s' with
    cache := s'.cache.reapToLowat b
    owned := update s.owned other (s.states.get? other).isSome }

def dropState (s : Server) (other : Other) : Server :=
  { s with
    states := s.states.erase other
    cache := if s.states.get? other = some true then s.cache.remove other else s.cache }

def newState (s : Server) (other : Other) : Server :=
  if (s.states.get? other).isSome then s else { s with states := s.states.insert other false }

end Server

inductive CacheOp
  | insert (other : Other) (entry : CachedFile)
  | get (other : Other)
  | remove (other : Other)
  | evictByPath (path : Str)
  | evictByIno (ino : UInt64)
  | evictLockFdsFor (path : Str) (ino : UInt64)
  | newState (other : Other)
  | dropState (other : Other)

def Server.step (b : FdBudget) (s : Server) : CacheOp → Server
  | .insert other entry => s.insert b other entry
  | .get other => { s with cache := s.cache.get other }
  | .remove other => { s with cache := s.cache.remove other }
  | .evictByPath path => { s with cache := s.cache.evictByPath path }
  | .evictByIno ino => { s with cache := s.cache.evictByIno ino }
  | .evictLockFdsFor path ino => { s with cache := s.cache.evictLockFdsFor path ino }
  | .newState other => s.newState other
  | .dropState other => s.dropState other

def Server.start : Server := ⟨⟨.empty, fun _ => [], fun _ => [], []⟩, .empty, fun _ => false⟩

/-! ### The cache -/

namespace FdCache

structure Sound (c : FdCache) : Prop where
  paths : Exact c.byPath (c.byStateid.trait CachedFile.pathKey)
  inos : Exact c.byIno (c.byStateid.trait CachedFile.inoKey)
  used : ∀ o, o ∈ c.order ↔ (c.byStateid.get? o).isSome
  once : c.order.Nodup

variable {c : FdCache}

theorem remove_get? (c : FdCache) (o x : Other) :
    (c.remove o).byStateid.get? x = if x = o then none else c.byStateid.get? x := by
  unfold remove
  grind [get?_erase]

theorem Sound.touched (h : c.Sound) (o : Other) : (c.touched o).Nodup :=
  nodup_append.mpr ⟨h.once.filter _, nodup_singleton o, by grind⟩

theorem Sound.get (h : c.Sound) (o : Other) : (c.get o).Sound := by
  unfold FdCache.get
  split
  · refine ⟨h.paths, h.inos, fun x => ?_, h.touched o⟩
    have := h.used x
    grind [FdCache.touched]
  · exact h

theorem Sound.remove (h : c.Sound) (o : Other) : (c.remove o).Sound := by
  unfold FdCache.remove
  cases he : c.byStateid.get? o with
  | none => exact h
  | some e =>
    have hpa := h.paths.unindex o
    have hino := h.inos.unindex o
    rw [← trait_erase, trait, he] at hpa hino
    refine ⟨hpa, hino, fun x => ?_, h.once.filter _⟩
    have := h.used x
    grind [get?_erase]

theorem Sound.put (h : c.Sound) (o : Other) (e : CachedFile) : (c.put o e).Sound := by
  have hpa := h.paths.reindex o e.pathKey
  have hino := h.inos.reindex o e.inoKey
  rw [← trait_insert] at hpa hino
  refine ⟨hpa, hino, fun x => ?_, h.touched o⟩
  have := h.used x
  grind [FdCache.put, FdCache.touched, get?_insert]

/-- Entries go, and the others stay as they are. -/
structure Shrinks (c c' : FdCache) : Prop where
  sound : c.Sound → c'.Sound
  fewer : ∀ x, c'.byStateid.get? x = none ∨ c'.byStateid.get? x = c.byStateid.get? x

theorem Shrinks.foldl {f : FdCache → Other → FdCache} (h : ∀ c o, Shrinks c (f c o))
    (l : List Other)
    (c : FdCache) : Shrinks c (l.foldl f c) := by
  induction l generalizing c with
  | nil => exact ⟨id, fun _ => .inr rfl⟩
  | cons o l ih =>
    refine ⟨fun hc => (ih _).sound ((h c o).sound hc), fun x => ?_⟩
    rcases (ih (f c o)).fewer x with hx | hx
    · exact .inl hx
    · rw [foldl_cons, hx]
      exact (h c o).fewer x

theorem shrinks_remove (c : FdCache) (o : Other) : Shrinks c (c.remove o) := by
  refine ⟨fun h => h.remove o, fun x => ?_⟩
  rw [remove_get?]
  split
  · exact .inl rfl
  · exact .inr rfl

theorem shrinks_get (c : FdCache) (o : Other) : Shrinks c (c.get o) := by
  refine ⟨fun h => h.get o, fun x => .inr ?_⟩
  unfold FdCache.get
  split <;> rfl

theorem shrinks_evict (p : CachedFile → Bool) (c : FdCache) (o : Other) :
    Shrinks c (evict p c o) := by
  have hget := shrinks_get c o
  unfold evict
  split
  · refine ⟨fun h => (h.get o).remove o, fun x => ?_⟩
    rw [remove_get?]
    split
    · exact .inl rfl
    · exact hget.fewer x
  · exact hget

theorem foldl_remove_get? (l : List Other) (c : FdCache) (x : Other) :
    (l.foldl FdCache.remove c).byStateid.get? x = if x ∈ l then none else c.byStateid.get? x := by
  induction l generalizing c with
  | nil => rfl
  | cons o l ih =>
    rw [foldl_cons, ih, remove_get?]
    grind

variable {b : FdBudget}

theorem shrinks_reap (b : FdBudget) (c : FdCache) : Shrinks c (c.reapToLowat b) := by
  unfold reapToLowat
  split
  · exact ⟨id, fun _ => .inr rfl⟩
  · exact .foldl shrinks_remove _ _

/-! ### Reaping -/

theorem Sound.length_order (h : c.Sound) : c.order.length = c.byStateid.size := by
  have hsub : c.order ⊆ c.byStateid.toList.map Prod.fst := fun o ho => by
    obtain ⟨e, he⟩ := Option.isSome_iff_exists.mp ((h.used o).mp ho)
    exact mem_map.mpr ⟨_, mem_toList.mpr he, rfl⟩
  have hle := (subperm_of_subset h.once hsub).length_le
  rw [toList, map_map, length_map] at hle
  exact hle.antisymm (size_le fun o => (h.used o).mpr)

theorem Sound.size_reap (h : c.Sound) : (c.reapToLowat b).byStateid.size ≤ b.hiwat := by
  unfold reapToLowat
  split
  · next hle => exact hle
  · have hle := size_le (d := ((c.order.take (c.byStateid.size - b.lowat)).foldl
        FdCache.remove c).byStateid) (l := c.order.drop (c.byStateid.size - b.lowat)) fun o ho => by
      rw [foldl_remove_get?] at ho
      have hmem := h.used o
      rw [← take_append_drop (c.byStateid.size - b.lowat) c.order] at hmem
      grind
    have hlen := h.length_order
    have hlt := b.lt
    rw [length_drop] at hle
    omega

/-- The entry that was used last is reaped only with all others. -/
theorem Sound.reap_last (h : c.Sound) {o : Other} {l : List Other} (ho : c.order = l ++ [o]) :
    (c.reapToLowat b).byStateid.get? o =
      if b.lowat = 0 ∧ b.hiwat < c.byStateid.size then none else c.byStateid.get? o := by
  have hlen := h.length_order
  have hlt := b.lt
  have hnot : o ∉ l := by
    have := h.once
    grind
  unfold reapToLowat
  rw [ho, length_append, length_singleton] at hlen
  split
  · rw [if_neg (by omega)]
  · rw [foldl_remove_get?, ho]
    by_cases hz : b.lowat = 0
    · rw [if_pos, if_pos (by omega)]
      rw [hz, Nat.sub_zero, take_of_length_le (by simp [hlen])]
      simp
    · rw [if_neg, if_neg (by omega)]
      rw [take_append_of_le_length (by omega)]
      exact fun hin => hnot (mem_of_mem_take hin)

end FdCache

namespace Server

variable {b : FdBudget} {s : Server}

structure Inv (s : Server) : Prop where
  sound : s.cache.Sound
  leased : ∀ o, s.owned o → (s.cache.byStateid.get? o).isSome → s.states.get? o = some true

theorem Inv.shrink (h : s.Inv) {c : FdCache} (hc : s.cache.Shrinks c) :
    Inv { s with cache := c } := by
  refine ⟨hc.sound h.sound, fun o howned ho => h.leased o howned ?_⟩
  rcases hc.fewer o with hno | hsm
  · rw [hno] at ho
    cases ho
  · exact hsm ▸ ho

/-- The cache after an insert and its lease: a displaced lease has removed the entry. -/
def leftBy (s : Server) (o : Other) (e : CachedFile) : FdCache :=
  if s.states.get? o = some true then (s.cache.put o e).remove o else s.cache.put o e

theorem insert_cache (b : FdBudget) (s : Server) (o : Other) (e : CachedFile) :
    (s.insert b o e).cache = (s.leftBy o e).reapToLowat b := by
  unfold insert attachFdLease leftBy
  dsimp only
  cases s.states.get? o with
  | none => rfl
  | some held => cases held <;> rfl

theorem Inv.leftBy (h : s.Inv) (o : Other) (e : CachedFile) : (s.leftBy o e).Sound := by
  unfold Server.leftBy
  split
  · exact (h.sound.put o e).remove o
  · exact h.sound.put o e

theorem Inv.insert (h : s.Inv) (o : Other) (e : CachedFile) : (s.insert b o e).Inv := by
  have hreap := FdCache.shrinks_reap b (s.leftBy o e)
  refine ⟨insert_cache b s o e ▸ hreap.sound (h.leftBy o e), fun x howned hx => ?_⟩
  have hstts : (s.insert b o e).states.get? x =
      if x = o ∧ (s.states.get? o).isSome then some true else s.states.get? x := by
    unfold Server.insert attachFdLease
    grind [get?_insert]
  change update s.owned o (s.states.get? o).isSome x = true at howned
  rw [update_apply] at howned
  rw [hstts]
  split at howned
  · next heq => rw [if_pos ⟨heq, howned⟩]
  · next hne =>
    rw [if_neg fun hand => hne hand.1]
    refine h.leased x howned ?_
    rw [insert_cache] at hx
    have hfewer := hreap.fewer x
    grind [Server.leftBy, FdCache.put, FdCache.remove_get?, get?_insert]

theorem Inv.step (h : s.Inv) (op : CacheOp) : (s.step b op).Inv := by
  cases op with
  | insert o e => exact h.insert o e
  | get o => exact h.shrink (FdCache.shrinks_get _ o)
  | remove o => exact h.shrink (FdCache.shrinks_remove _ o)
  | evictByPath path => exact h.shrink (.foldl (FdCache.shrinks_evict _) _ _)
  | evictByIno ino =>
    refine h.shrink ?_
    unfold FdCache.evictByIno
    split
    · exact ⟨id, fun _ => .inr rfl⟩
    · exact .foldl (FdCache.shrinks_evict _) _ _
  | evictLockFdsFor path ino => exact h.shrink (.foldl FdCache.shrinks_remove _ _)
  | newState o =>
    change (s.newState o).Inv
    unfold newState
    split
    · exact h
    · refine ⟨h.sound, fun x howned hx => ?_⟩
      have := h.leased x howned hx
      grind [get?_insert]
  | dropState o =>
    refine ⟨?_, fun x howned hx => ?_⟩
    · change (if _ then _ else _ : FdCache).Sound
      split
      · exact h.sound.remove o
      · exact h.sound
    · change (s.states.erase o).get? x = some true
      change ((if s.states.get? o = some true then s.cache.remove o else s.cache).byStateid.get?
        x).isSome at hx
      have := h.leased x howned
      grind [FdCache.remove_get?, get?_erase]

theorem inv_start : start.Inv :=
  ⟨⟨⟨fun _ _ => ⟨nofun, nofun⟩, fun _ => .nil⟩, ⟨fun _ _ => ⟨nofun, nofun⟩, fun _ => .nil⟩,
    fun _ => ⟨nofun, nofun⟩, .nil⟩, nofun⟩

end Server

structure Bookkept (s : Server) : Prop where
  paths : Exact s.cache.byPath (s.cache.byStateid.trait CachedFile.pathKey)
  inos : Exact s.cache.byIno (s.cache.byStateid.trait CachedFile.inoKey)
  released : ∀ o, s.owned o → s.states.get? o = none → s.cache.byStateid.get? o = none

/-- **What holds of every run.** The indices are exact and dropped records leave no entry. An insert
keeps the bound, and leaves its entry exactly if the record of the stateid holds no lease yet and
the reaping leaves anything. -/
theorem cache_bookkept (b : FdBudget) (ops : List CacheOp) :
    let s := run (Server.step b) .start ops
    Bookkept s ∧ ∀ o e, (s.insert b o e).cache.byStateid.size ≤ b.hiwat ∧
      ((s.insert b o e).cache.byStateid.get? o = some e ↔ s.states.get? o ≠ some true ∧
        (b.lowat = 0 → (s.cache.put o e).byStateid.size ≤ b.hiwat)) := by
  intro s
  have hinv : s.Inv := run_invariant (fun _ op h => h.step op) Server.inv_start ops
  refine ⟨⟨hinv.sound.paths, hinv.sound.inos, fun o howned hgo => ?_⟩, fun o e => ?_⟩
  · by_contra hne
    cases hgo.symm.trans (hinv.leased o howned (Option.isSome_iff_ne_none.mpr hne))
  · have hput := hinv.sound.put o e
    have hent : (s.cache.put o e).byStateid.get? o = some e := get?_insert_self ..
    rw [Server.insert_cache]
    refine ⟨(hinv.leftBy o e).size_reap, ?_⟩
    unfold Server.leftBy
    split
    · next hhd =>
      have hgo := (FdCache.shrinks_reap b ((s.cache.put o e).remove o)).fewer o
      rw [FdCache.remove_get?, if_pos rfl, or_self] at hgo
      rw [hgo]
      exact iff_of_false nofun fun hand => hand.1 hhd
    · rw [hput.reap_last rfl, hent]
      grind

/-- A second insert for an open file displaces the lease of the first one, and the cache is left
without the entry. -/
theorem second_insert_lost :
    let e : CachedFile := ⟨3, ['a'], true, 7⟩
    let s := run (Server.step ⟨2, 1, by decide⟩) .start
      [.newState ⟨0, 1⟩, .insert ⟨0, 1⟩ e, .insert ⟨0, 1⟩ e]
    s.states.get? ⟨0, 1⟩ = some true ∧ s.cache.byStateid.get? ⟨0, 1⟩ = none := by
  decide

namespace FdCache

/-- An eviction takes the entries of the file, and no others. -/
structure EvictsExactly (c : FdCache) : Prop where
  path : ∀ path o e, (c.evictByPath path).byStateid.get? o = some e ↔
    c.byStateid.get? o = some e ∧ e.path ≠ path
  ino : ∀ ino o e, (c.evictByIno ino).byStateid.get? o = some e ↔
    c.byStateid.get? o = some e ∧ (ino = 0 ∨ e.ino ≠ ino)
  locks : ∀ path ino o e, (c.evictLockFdsFor path ino).byStateid.get? o = some e ↔
    c.byStateid.get? o = some e ∧ (o.hi = mintedTag → e.path ≠ path ∧ (ino = 0 ∨ e.ino ≠ ino))

theorem foldl_evict_get? (p : CachedFile → Bool) (l : List Other) (c : FdCache) (x : Other)
    (e : CachedFile) : (l.foldl (evict p) c).byStateid.get? x = some e ↔
      c.byStateid.get? x = some e ∧ (x ∈ l → p e = false) := by
  have hs : ∀ (c : FdCache) (o : Other), (evict p c o).byStateid.get? x = some e ↔
      c.byStateid.get? x = some e ∧ (x = o → p e = false) := by
    intro c o
    have hget : (c.get o).byStateid = c.byStateid := by rw [FdCache.get]; split <;> rfl
    rw [evict]
    split <;> grind [remove_get?]
  induction l generalizing c with
  | nil => simp
  | cons o l ih =>
    refine (ih _).trans ?_
    rw [hs]
    grind

/-- **Evictions are exact** in every cache that a run reaches. -/
theorem evictions_exact (b : FdBudget) (ops : List CacheOp) :
    EvictsExactly (run (Server.step b) .start ops).cache := by
  have h : (run (Server.step b) .start ops).cache.Sound :=
    (run_invariant (P := Server.Inv) (fun _ op h => h.step op) Server.inv_start ops).sound
  generalize (run (Server.step b) .start ops).cache = c at h
  refine ⟨fun path o e => ?_, fun ino o e => ?_, fun path ino o e => ?_⟩
  · have hmem := h.paths.mem path o
    rw [evictByPath, foldl_evict_get?]
    grind [trait, CachedFile.pathKey]
  · have hmem := h.inos.mem ino o
    rw [evictByIno]
    split
    · grind
    · rw [foldl_evict_get?]
      grind [trait, CachedFile.inoKey]
  · rw [evictLockFdsFor, foldl_remove_get?]
    cases hent : c.byStateid.get? o <;> simp [mem_toList, hent]
    grind

end FdCache

end Flint.Descriptors
