/-
# Name graphs

What a filesystem's directories say, without any layout: nodes that are live or not and
directories or not, and for every directory a table of entries, each a label and the node it
names.  `WF` is the property that a tree of names needs: every entry names a live node other
than the root, every live node is named exactly once, and no directory uses a label twice.
Nodes may be `orphan` for a while: live, but named nowhere.

There are four elementary changes: a node comes alive as an orphan, an orphan is linked under a
label, an entry is dropped and what it named becomes an orphan, an orphan that is no directory
dies.  Each keeps `WF` with the orphans it says.  A path is a walk along labels, and depends only
on the entries it uses.
-/
import Mathlib.Data.Option.Basic
import Mathlib.Tactic.Common

/-- Nodes `N`, table positions `P`, labels `L`. -/
structure NameGraph (N P L : Type) where
  live : N → Prop
  dir : N → Prop
  entry : N → P → Option (L × N)

namespace NameGraph

variable {N P L : Type}

/-- Entry `j` of directory `d` names `k`. -/
def Names (T : NameGraph N P L) (d : N) (j : P) (k : N) : Prop :=
  T.dir d ∧ ∃ l, T.entry d j = some (l, k)

/-- The entries of every directory lead to live nodes and every live node is named once. -/
structure WF (T : NameGraph N P L) (root : N) (orphan : N → Prop) : Prop where
  root_dir : T.dir root
  dir_live : ∀ d, T.dir d → T.live d
  target : ∀ d j k, T.Names d j k → T.live k ∧ k ≠ root ∧ ¬ orphan k
  inj : ∀ d j d' j' k, T.Names d j k → T.Names d' j' k → d = d' ∧ j = j'
  label : ∀ d j j' l k k', T.dir d → T.entry d j = some (l, k) → T.entry d j' = some (l, k') →
    j = j'
  named : ∀ k, T.live k → k ≠ root → ¬ orphan k → ∃ d j, T.Names d j k
  orphan_live : ∀ k, orphan k → T.live k ∧ k ≠ root

/-- Two graphs that say the same: the tables of nodes that are no directories do not count. -/
structure Same (T T' : NameGraph N P L) : Prop where
  live : ∀ n, T'.live n ↔ T.live n
  dir : ∀ n, T'.dir n ↔ T.dir n
  entry : ∀ d, T.dir d → ∀ j, T'.entry d j = T.entry d j

theorem Same.names {T T' : NameGraph N P L} (h : Same T T') (d : N) (j : P) (k : N) :
    T'.Names d j k ↔ T.Names d j k := by
  constructor
  · rintro ⟨hd, l, he⟩
    have hd' := (h.dir d).mp hd
    exact ⟨hd', l, (h.entry d hd' j).symm.trans he⟩
  · rintro ⟨hd, l, he⟩
    exact ⟨(h.dir d).mpr hd, l, (h.entry d hd j).trans he⟩

theorem WF.congr {T T' : NameGraph N P L} {root : N} {orphan orphan' : N → Prop}
    (h : T.WF root orphan) (hs : Same T T') (ho : ∀ k, orphan' k ↔ orphan k) :
    T'.WF root orphan' where
  root_dir := (hs.dir root).mpr h.root_dir
  dir_live d hd := (hs.live d).mpr (h.dir_live d ((hs.dir d).mp hd))
  target d j k hn := by
    obtain ⟨hl, hr, hno⟩ := h.target d j k ((hs.names d j k).mp hn)
    exact ⟨(hs.live k).mpr hl, hr, fun hk => hno ((ho k).mp hk)⟩
  inj d j d' j' k hn hn' := h.inj d j d' j' k ((hs.names d j k).mp hn) ((hs.names d' j' k).mp hn')
  label d j j' l k k' hd he he' := by
    have hd' := (hs.dir d).mp hd
    rw [hs.entry d hd'] at he he'
    exact h.label d j j' l k k' hd' he he'
  named k hl hr hno := by
    obtain ⟨d, j, hn⟩ := h.named k ((hs.live k).mp hl) hr fun hk => hno ((ho k).mpr hk)
    exact ⟨d, j, (hs.names d j k).mpr hn⟩
  orphan_live k hk := by
    obtain ⟨hl, hr⟩ := h.orphan_live k ((ho k).mp hk)
    exact ⟨(hs.live k).mpr hl, hr⟩

variable {T : NameGraph N P L} {root : N} {orphan orphan' : N → Prop}

section Changes

variable [DecidableEq N]

/-! ## 1. A node comes alive -/

/-- Node `k` comes alive, a directory without entries if `b`. -/
def addNode (T : NameGraph N P L) (k : N) (b : Prop) : NameGraph N P L where
  live n := n = k ∨ T.live n
  dir n := if n = k then b else T.dir n
  entry n j := if n = k then none else T.entry n j

theorem names_addNode {k : N} {b : Prop} {d n : N} {j : P} :
    (T.addNode k b).Names d j n ↔ d ≠ k ∧ T.Names d j n := by
  unfold Names addNode
  by_cases h : d = k <;> simp [h]

theorem WF.addNode (h : T.WF root orphan) {k : N} {b : Prop} (hk : ¬ T.live k)
    (ho : ∀ n, orphan' n ↔ n = k ∨ orphan n) : (T.addNode k b).WF root orphan' where
  root_dir := by
    have hne : root ≠ k := by rintro rfl; exact hk (h.dir_live _ h.root_dir)
    simp only [NameGraph.addNode, if_neg hne]
    exact h.root_dir
  dir_live d hd := by
    by_cases hdk : d = k
    · exact Or.inl hdk
    · simp only [NameGraph.addNode, if_neg hdk] at hd
      exact Or.inr (h.dir_live d hd)
  target d j n hn := by
    obtain ⟨hl, hr, hno⟩ := h.target d j n (names_addNode.mp hn).2
    refine ⟨Or.inr hl, hr, fun hon => ?_⟩
    rcases (ho n).mp hon with rfl | hon
    · exact hk hl
    · exact hno hon
  inj d j d' j' n hn hn' :=
    h.inj d j d' j' n (names_addNode.mp hn).2 (names_addNode.mp hn').2
  label d j j' l n n' hd he he' := by
    by_cases hdk : d = k
    · simp [NameGraph.addNode, hdk] at he
    · simp only [NameGraph.addNode, if_neg hdk] at hd he he'
      exact h.label d j j' l n n' hd he he'
  named n hl hr hno := by
    have hnk : n ≠ k := fun hn => hno ((ho n).mpr (Or.inl hn))
    obtain ⟨d, j, hn⟩ := h.named n (hl.resolve_left hnk) hr fun hon => hno ((ho n).mpr (Or.inr hon))
    refine ⟨d, j, names_addNode.mpr ⟨?_, hn⟩⟩
    rintro rfl
    exact hk (h.dir_live _ hn.1)
  orphan_live n hn := by
    rcases (ho n).mp hn with rfl | hn
    · refine ⟨Or.inl rfl, ?_⟩
      rintro rfl
      exact hk (h.dir_live _ h.root_dir)
    · exact ⟨Or.inr (h.orphan_live n hn).1, (h.orphan_live n hn).2⟩

/-! ## 2. An orphan is linked -/

section Entries

variable [DecidableEq P]

/-- Entry `j` of directory `d` becomes `e`. -/
def setEntry (T : NameGraph N P L) (d : N) (j : P) (e : Option (L × N)) : NameGraph N P L where
  live := T.live
  dir := T.dir
  entry n i := if n = d ∧ i = j then e else T.entry n i

theorem names_setEntry {d n k : N} {i j : P} {e : Option (L × N)} :
    (T.setEntry d j e).Names n i k ↔
      if n = d ∧ i = j then T.dir d ∧ ∃ l, e = some (l, k) else T.Names n i k := by
  unfold Names setEntry
  by_cases h : n = d ∧ i = j
  · simp only [if_pos h]
    rw [h.1]
  · simp only [if_neg h]

theorem WF.link (h : T.WF root orphan) {d k : N} {j : P} {l : L} (hd : T.dir d)
    (hfree : T.entry d j = none) (hnew : ∀ i n, T.entry d i ≠ some (l, n)) (hk : orphan k)
    (ho : ∀ n, orphan' n ↔ orphan n ∧ n ≠ k) : (T.setEntry d j (some (l, k))).WF root orphan' := by
  -- nothing names `k` before, and nothing stands at `j` of `d`
  have hnone : ∀ d' j', ¬ T.Names d' j' k := fun d' j' hn => (h.target d' j' k hn).2.2 hk
  have hnames : ∀ n i m, (T.setEntry d j (some (l, k))).Names n i m →
      n = d ∧ i = j ∧ m = k ∨ ¬ (n = d ∧ i = j) ∧ T.Names n i m := by
    intro n i m hn
    rw [names_setEntry] at hn
    split at hn
    · rename_i heq
      obtain ⟨-, l', he⟩ := hn
      cases he
      exact Or.inl ⟨heq.1, heq.2, rfl⟩
    · rename_i hne
      exact Or.inr ⟨hne, hn⟩
  have hself : (T.setEntry d j (some (l, k))).Names d j k :=
    names_setEntry.mpr (by rw [if_pos ⟨rfl, rfl⟩]; exact ⟨hd, l, rfl⟩)
  constructor
  case root_dir => exact h.root_dir
  case dir_live => exact h.dir_live
  case target =>
    intro n i m hn
    rcases hnames n i m hn with ⟨-, -, rfl⟩ | ⟨-, hn⟩
    · exact ⟨(h.orphan_live m hk).1, (h.orphan_live m hk).2, fun hm => ((ho m).mp hm).2 rfl⟩
    · obtain ⟨hl, hr, hno⟩ := h.target n i m hn
      exact ⟨hl, hr, fun hm => hno ((ho m).mp hm).1⟩
  case inj =>
    intro n i n' i' m hn hn'
    rcases hnames n i m hn with ⟨h1, h2, hm⟩ | ⟨-, hnm⟩ <;>
      rcases hnames n' i' m hn' with ⟨h1', h2', hm'⟩ | ⟨-, hnm'⟩
    · exact ⟨h1.trans h1'.symm, h2.trans h2'.symm⟩
    · rw [hm] at hnm'
      exact absurd hnm' (hnone n' i')
    · rw [hm'] at hnm
      exact absurd hnm (hnone n i)
    · exact h.inj n i n' i' m hnm hnm'
  case label =>
    intro n i i' l' m m' hn he he'
    simp only [setEntry] at he he'
    split at he <;> split at he'
    · rename_i h1 h2
      rw [h1.2, h2.2]
    · rename_i h1 _
      cases he
      exact absurd (h1.1 ▸ he') (hnew i' m')
    · rename_i _ h2
      cases he'
      exact absurd (h2.1 ▸ he) (hnew i m)
    · exact h.label n i i' l' m m' hn he he'
  case named =>
    intro m hl hr hno
    by_cases hmk : m = k
    · subst hmk; exact ⟨d, j, hself⟩
    · obtain ⟨n, i, hn⟩ := h.named m hl hr fun hm => hno ((ho m).mpr ⟨hm, hmk⟩)
      refine ⟨n, i, names_setEntry.mpr ?_⟩
      rw [if_neg]
      · exact hn
      · rintro ⟨rfl, rfl⟩
        obtain ⟨-, l', he⟩ := hn
        rw [hfree] at he
        cases he
  case orphan_live =>
    intro m hm
    exact h.orphan_live m ((ho m).mp hm).1

/-! ## 3. An entry is dropped -/

theorem WF.drop (h : T.WF root orphan) {d k : N} {j : P} (hn : T.Names d j k)
    (ho : ∀ n, orphan' n ↔ n = k ∨ orphan n) : (T.setEntry d j none).WF root orphan' := by
  have hnames : ∀ n i m, (T.setEntry d j none).Names n i m → ¬ (n = d ∧ i = j) ∧ T.Names n i m := by
    intro n i m hm
    rw [names_setEntry] at hm
    split at hm
    · obtain ⟨-, l, he⟩ := hm
      cases he
    · rename_i hne
      exact ⟨hne, hm⟩
  have hkeep : ∀ n i m, T.Names n i m → m ≠ k → (T.setEntry d j none).Names n i m := by
    intro n i m hm hmk
    rw [names_setEntry, if_neg]
    · exact hm
    · rintro ⟨rfl, rfl⟩
      obtain ⟨-, l, he⟩ := hm
      obtain ⟨-, l', he'⟩ := hn
      rw [he] at he'
      cases he'
      exact hmk rfl
  constructor
  case root_dir => exact h.root_dir
  case dir_live => exact h.dir_live
  case target =>
    intro n i m hm
    obtain ⟨hne, hm⟩ := hnames n i m hm
    obtain ⟨hl, hr, hno⟩ := h.target n i m hm
    refine ⟨hl, hr, fun hom => ?_⟩
    rcases (ho m).mp hom with rfl | hom
    · exact hne (h.inj n i d j m hm hn)
    · exact hno hom
  case inj =>
    intro n i n' i' m hm hm'
    exact h.inj n i n' i' m (hnames n i m hm).2 (hnames n' i' m hm').2
  case label =>
    intro n i i' l m m' hdn he he'
    simp only [setEntry] at he he'
    split at he <;> split at he'
    · cases he
    · cases he
    · cases he'
    · exact h.label n i i' l m m' hdn he he'
  case named =>
    intro m hl hr hno
    have hmk : m ≠ k := fun hm => hno ((ho m).mpr (Or.inl hm))
    obtain ⟨n, i, hm⟩ := h.named m hl hr fun hom => hno ((ho m).mpr (Or.inr hom))
    exact ⟨n, i, hkeep n i m hm hmk⟩
  case orphan_live =>
    intro m hm
    rcases (ho m).mp hm with rfl | hm
    · obtain ⟨hl, hr, -⟩ := h.target d j m hn
      exact ⟨hl, hr⟩
    · exact h.orphan_live m hm

end Entries

end Changes

/-! ## 4. An orphan dies -/

/-- Node `k` is dead. -/
def removeNode (T : NameGraph N P L) (k : N) : NameGraph N P L where
  live n := n ≠ k ∧ T.live n
  dir n := n ≠ k ∧ T.dir n
  entry := T.entry

theorem WF.removeNode (h : T.WF root orphan) {k : N} (hk : orphan k) (hdir : ¬ T.dir k)
    (ho : ∀ n, orphan' n ↔ orphan n ∧ n ≠ k) : (T.removeNode k).WF root orphan' := by
  have hne : ∀ n, T.dir n → n ≠ k := by rintro n hn rfl; exact hdir hn
  have hnames : ∀ d j n, (T.removeNode k).Names d j n ↔ T.Names d j n := fun d j n =>
    and_congr_left fun _ => ⟨And.right, fun hd => ⟨hne d hd, hd⟩⟩
  constructor
  case root_dir => exact ⟨hne root h.root_dir, h.root_dir⟩
  case dir_live =>
    intro d hd
    exact ⟨hd.1, h.dir_live d hd.2⟩
  case target =>
    intro d j n hn
    obtain ⟨hl, hr, hno⟩ := h.target d j n ((hnames d j n).mp hn)
    refine ⟨⟨?_, hl⟩, hr, fun hon => hno ((ho n).mp hon).1⟩
    rintro rfl
    exact hno hk
  case inj =>
    intro d j d' j' n hn hn'
    exact h.inj d j d' j' n ((hnames d j n).mp hn) ((hnames d' j' n).mp hn')
  case label =>
    intro d j j' l n n' hd he he'
    exact h.label d j j' l n n' hd.2 he he'
  case named =>
    intro n hl hr hno
    obtain ⟨d, j, hn⟩ := h.named n hl.2 hr fun hon => hno ((ho n).mpr ⟨hon, hl.1⟩)
    exact ⟨d, j, (hnames d j n).mpr hn⟩
  case orphan_live =>
    intro n hn
    obtain ⟨hon, hnk⟩ := (ho n).mp hn
    exact ⟨⟨hnk, (h.orphan_live n hon).1⟩, (h.orphan_live n hon).2⟩

/-! ## 5. Paths -/

/-- The labels `ls` lead from node `d` to node `n`. -/
inductive Path (T : NameGraph N P L) : N → List L → N → Prop
  | nil (n : N) : Path T n [] n
  | cons {d k n : N} {j : P} {l : L} {ls : List L} (hd : T.dir d)
      (he : T.entry d j = some (l, k)) (hp : Path T k ls n) : Path T d (l :: ls) n

/-- `T'` has every directory of `T`, and every entry that leads to none of the nodes `gone`. -/
structure Keeps (T T' : NameGraph N P L) (gone : N → Prop) : Prop where
  dir : ∀ d, T.dir d → T'.dir d
  entry : ∀ d j l k, T.dir d → T.entry d j = some (l, k) → ¬ gone k →
    T'.entry d j = some (l, k)

/-- **A path to a node that stays is kept**, if no directory goes. -/
theorem Path.keep {T T' : NameGraph N P L} {gone : N → Prop} (h : Keeps T T' gone)
    (hfile : ∀ n, gone n → ¬ T.dir n) {d n : N} {ls : List L} (hp : T.Path d ls n)
    (hn : ¬ gone n) : T'.Path d ls n := by
  induction hp with
  | nil n => exact .nil n
  | cons hd he hp ih =>
    refine .cons (h.dir _ hd) (h.entry _ _ _ _ hd he fun hk => ?_) (ih hn)
    -- from a node that goes the path can go no further
    cases hp with
    | nil => exact hn hk
    | cons hd' => exact hfile _ hk hd'

end NameGraph
