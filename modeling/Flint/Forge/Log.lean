import Mathlib.Algebra.GroupWithZero.Nat
import Flint.Forge.Batch

/-!
# Following the log

After each CAS of the snapshot the writer puts an entry beside it that says what the CAS changed
(`diff`). A follower that stands at a snapshot applies the entry of the next number, as long as
there is one (`chase`).
-/

namespace Flint.Forge.Log

open SortedMap List

def snapshotVersion : ℕ := 1

def logVersion : ℕ := 1

def maxChase : ℕ := 512

def tailBudgetBytes : ℕ := 64 * 1024 * 1024

structure Snapshot where
  version : ℕ
  seq : ℕ
  epoch : ℕ
  refs : Refs
  packs : List Str
  bundles : List Str
  exportedCommit : Option Str
  writer : Str
  unix : ℕ

structure PackFiles where
  pack : Str
  files : List Str
  bytes : ℕ

structure LogEntry where
  version : ℕ
  seq : ℕ
  fromSeq : ℕ
  epoch : ℕ
  unix : ℕ
  writer : Str
  refs : Refs
  packsAdded : List PackFiles
  packsRemoved : List Str
  bundles : List Str
  exportedCommit : Option Str

def LogEntry.changes (e : LogEntry) : List (Str × Option Str) :=
  e.refs.rows.map fun r => (r.1, if r.2 = absent then none else some r.2)

def LogEntry.apply (e : LogEntry) (snap : Snapshot) : Snapshot :=
  { snap with
    refs := e.changes.foldl patchOne snap.refs
    packs := e.packsAdded.foldl (fun packs a => if a.pack ∈ packs then packs else packs ++ [a.pack])
      (snap.packs.filter (· ∉ e.packsRemoved))
    bundles := e.bundles
    exportedCommit := e.exportedCommit
    seq := e.seq
    epoch := e.epoch
    unix := e.unix
    writer := e.writer }

def diff (prev next : Snapshot) (filesOf : Str → List Str × ℕ) : LogEntry where
  version := logVersion
  seq := next.seq
  fromSeq := prev.seq
  epoch := next.epoch
  unix := next.unix
  writer := next.writer
  refs := prev.refs.keys.foldl
    (fun refs name => if (next.refs.get? name).isSome then refs else refs.insert name absent)
    (next.refs.retain fun name oid => prev.refs.get? name ≠ some oid)
  packsAdded := (next.packs.filter (· ∉ prev.packs)).map fun p => ⟨p, (filesOf p).1, (filesOf p).2⟩
  packsRemoved := prev.packs.filter (· ∉ next.packs)
  bundles := next.bundles
  exportedCommit := next.exportedCommit

def written (cell next : Snapshot) (epoch unix : ℕ) (writer : Str) : Snapshot :=
  { next with version := snapshotVersion, seq := cell.seq + 1, epoch, writer, unix }

/-- An entry is read if it is of this version and stands under its own number. -/
def read (bucket : ℕ → Option LogEntry) (seq : ℕ) : Option LogEntry :=
  (bucket seq).filter fun e => e.version ≤ logVersion ∧ e.seq = seq

inductive Reach
  | full | tailOnly
deriving DecidableEq

/-- The loop of a warm pass, which may apply `n` more entries. -/
def chase (reach : Reach) (bucket : ℕ → Option LogEntry) : ℕ → ℕ → ℕ → Snapshot → Snapshot
  | 0, _, _, snap => snap
  | n + 1, applied, budget, snap =>
    match read bucket (snap.seq + 1) with
    | none => snap
    | some e =>
      let cost := (e.packsAdded.map PackFiles.bytes).sum
      if reach = .tailOnly ∧ 0 < applied ∧ budget < cost then snap
      else chase reach bucket n (applied + 1) (if reach = .tailOnly then budget - cost else budget)
        (e.apply snap)

/-! ### One entry -/

def Agrees (a b : Snapshot) : Prop :=
  (∀ p, p ∈ a.packs ↔ p ∈ b.packs) ∧ { a with packs := b.packs } = b

variable {prev next s : Snapshot} {filesOf : Str → List Str × ℕ}

theorem get?_refs_diff (name : Str) : (diff prev next filesOf).refs.get? name =
    if prev.refs.get? name = next.refs.get? name then none
    else some ((next.refs.get? name).getD absent) := by
  have hgo : ∀ (names : List Str) (refs : Refs), (names.foldl (fun refs name =>
      if (next.refs.get? name).isSome then refs else refs.insert name absent) refs).get? name =
        if name ∈ names ∧ next.refs.get? name = none then some absent else refs.get? name := by
    intro names
    induction names with
    | nil => simp
    | cons n names ih =>
      intro refs
      rw [foldl_cons, ih]
      by_cases hn : name = n
      · subst hn
        cases hnx : next.refs.get? name <;> simp [get?_insert]
      · cases (next.refs.get? n).isSome <;> simp [hn, get?_insert]
  unfold diff
  rw [hgo, get?_retain]
  simp only [SortedMap.mem_keys]
  cases next.refs.get? name <;> cases prev.refs.get? name <;> grind

theorem get?_refs_apply (e : LogEntry) (name : Str) : (e.apply s).refs.get? name =
    ((e.refs.get? name).map fun oid => if oid = absent then none else some oid).getD
      (s.refs.get? name) := by
  have hagree : ∀ c ∈ e.changes, c.1 = name → c.2 = ((e.refs.get? name).map fun oid =>
      if oid = absent then none else some oid).join := by
    intro c hc hna
    obtain ⟨r, hr, rfl⟩ := mem_map.mp hc
    rw [← hna, get?_eq_some.mpr hr]
    rfl
  have hks : name ∈ e.changes.map Prod.fst ↔ (e.refs.get? name).isSome := by
    rw [← SortedMap.mem_keys, LogEntry.changes, map_map]
    rfl
  unfold LogEntry.apply
  rw [get?_foldl_patchOne hagree]
  simp only [hks]
  cases e.refs.get? name <;> rfl

theorem mem_packs_apply (e : LogEntry) (p : Str) : p ∈ (e.apply s).packs ↔
    p ∈ s.packs ∧ p ∉ e.packsRemoved ∨ ∃ a ∈ e.packsAdded, a.pack = p := by
  have hpu : ∀ (added : List PackFiles) (packs : List Str), p ∈ added.foldl
      (fun packs a => if a.pack ∈ packs then packs else packs ++ [a.pack]) packs ↔
        p ∈ packs ∨ ∃ a ∈ added, a.pack = p := by
    intro added
    induction added with
    | nil => simp
    | cons a added ih =>
      intro packs
      rw [foldl_cons, ih]
      grind
  unfold LogEntry.apply
  rw [hpu, mem_filter, decide_eq_true_iff]

theorem Agrees.apply (h : Agrees s prev) (hversion : next.version = prev.version)
    (hrf : ∀ name, next.refs.get? name ≠ some absent) :
    Agrees ((diff prev next filesOf).apply s) next := by
  obtain ⟨hpks, hrs⟩ := h
  have hold : s.version = prev.version ∧ s.refs = prev.refs := by
    rw [← hrs]
    exact ⟨rfl, rfl⟩
  have hsm : ((diff prev next filesOf).apply s).refs = next.refs := by
    refine ext_get? fun name => ?_
    have hne := hrf name
    rw [get?_refs_apply, get?_refs_diff, hold.2]
    split
    · next heq => exact heq
    · cases hnx : next.refs.get? name with
      | none => rfl
      | some oid => exact if_neg fun hoid : oid = absent => hne (hnx.trans (congrArg some hoid))
  refine ⟨fun p => ?_, ?_⟩
  · rw [mem_packs_apply, hpks]
    simp only [diff, mem_filter, mem_map]
    grind
  · change Snapshot.mk s.version _ _ _ _ _ _ _ _ = next
    rw [hsm, hold.1, ← hversion]
    rfl

/-! ### Chains -/

structure Chain (S : ℕ → Snapshot) : Prop where
  first : (S 0).version = snapshotVersion
  cas : ∀ i, ∃ next epoch unix writer, S (i + 1) = written (S i) next epoch unix writer
  refs : ∀ i name, (S i).refs.get? name ≠ some absent

variable {S : ℕ → Snapshot}

theorem Chain.stamped (h : Chain S) (i : ℕ) :
    (S i).version = snapshotVersion ∧ (S i).seq = (S 0).seq + i := by
  induction i with
  | zero => exact ⟨h.first, rfl⟩
  | succ i ih =>
    obtain ⟨next, epoch, unix, writer, heq⟩ := h.cas i
    rw [heq, ← Nat.add_assoc, ← ih.2]
    exact ⟨rfl, rfl⟩

theorem Chain.step (h : Chain S) {i : ℕ} (hs : Agrees s (S i)) :
    Agrees ((diff (S i) (S (i + 1)) filesOf).apply s) (S (i + 1)) :=
  hs.apply ((h.stamped _).1.trans (h.stamped i).1.symm) (h.refs (i + 1))

theorem Chain.chase (h : Chain S) {reach : Reach} {bucket : ℕ → Option LogEntry}
    (hbkt : ∀ seq e, bucket seq = some e → ∃ i filesOf, e = diff (S i) (S (i + 1)) filesOf)
    (n applied budget : ℕ) {a : ℕ} (hs : Agrees s (S a)) :
    ∃ b, a ≤ b ∧ Agrees (Log.chase reach bucket n applied budget s) (S b) := by
  induction n generalizing applied budget s a with
  | zero => exact ⟨a, le_rfl, hs⟩
  | succ n ih =>
    rw [Log.chase]
    split
    · exact ⟨a, le_rfl, hs⟩
    · next e he =>
      dsimp only
      split
      · exact ⟨a, le_rfl, hs⟩
      · -- the number of the entry tells which it is
        obtain ⟨hmem, hseq⟩ := Option.filter_eq_some_iff.mp he
        obtain ⟨i, filesOf, rfl⟩ := hbkt _ e hmem
        obtain rfl : i = a := by
          have hnumber : (S (i + 1)).seq = s.seq + 1 := (of_decide_eq_true hseq).2
          have hstd : s.seq = (S a).seq := by rw [← hs.2]
          rw [(h.stamped _).2, hstd, (h.stamped a).2] at hnumber
          omega
        obtain ⟨b, hb, hagrees⟩ := ih _ _ (h.step hs)
        exact ⟨b, (Nat.le_succ i).trans hb, hagrees⟩

def followed (S : ℕ → Snapshot) (filesOf : ℕ → Str → List Str × ℕ) (a : ℕ) : ℕ → Snapshot
  | 0 => S a
  | n + 1 => (diff (S (a + n)) (S (a + n + 1)) (filesOf n)).apply (followed S filesOf a n)

/-- **Following the log is reading the snapshot.** A follower that stands at a snapshot of a chain
stops at that one or a later one, whatever entries it finds. -/
theorem following_eq_reading (S : ℕ → Snapshot) (hS : Chain S) :
    (∀ filesOf a n, Agrees (followed S filesOf a n) (S (a + n))) ∧
    ∀ (bucket : ℕ → Option LogEntry) (reach : Reach) (a : ℕ) (s : Snapshot),
      (∀ seq e, bucket seq = some e → ∃ i filesOf, e = diff (S i) (S (i + 1)) filesOf) →
      Agrees s (S a) → ∃ b, a ≤ b ∧ Agrees (chase reach bucket maxChase 0 tailBudgetBytes s)
        (S b) := by
  refine ⟨fun filesOf a n => ?_, fun bucket reach a s hbkt => hS.chase hbkt maxChase 0 _⟩
  induction n with
  | zero => exact ⟨fun _ => Iff.rfl, rfl⟩
  | succ n ih => exact hS.step ih

/-- Each snapshot moves the one ref, and has a pack and a bundle of its own. -/
def rotated (i : ℕ) : Snapshot where
  version := snapshotVersion
  seq := i
  epoch := 0
  refs := empty.insert (.single 'r') (.append (.single 'o') (replicate i 'o'))
  packs := [replicate i 'p']
  bundles := [replicate i 'b']
  exportedCommit := none
  writer := []
  unix := 0

def afterThree (seq : ℕ) : Option LogEntry :=
  if seq = 4 then some (diff (rotated 3) (rotated 4) fun _ => ([], 1)) else none

theorem takeover_followed :
    Agrees (chase .tailOnly afterThree maxChase 0 tailBudgetBytes (rotated 3)) (rotated 4) := by
  have hchn : Chain rotated := by
    refine ⟨rfl, fun i => ⟨rotated (i + 1), 0, 0, [], rfl⟩, fun i name => ?_⟩
    simp only [rotated, get?_insert]
    split
    · exact fun h => cons_ne_nil _ _ (Option.some.inj h)
    · nofun
  obtain ⟨b, -, hb⟩ := (following_eq_reading rotated hchn).2 afterThree .tailOnly 3 (rotated 3)
    (fun seq e he => by
      rw [afterThree] at he
      split at he
      · exact ⟨3, _, (Option.some.inj he).symm⟩
      · cases he) ⟨fun _ => Iff.rfl, rfl⟩
  obtain rfl : 4 = b := congrArg Snapshot.seq hb.2
  exact hb

end Flint.Forge.Log
