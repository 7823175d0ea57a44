/-
# File trees

What a filesystem is for, without blocks, records or caches: numbered nodes, each a directory
that maps names to nodes or a file that holds data, and three changes, a node that is made under
a name, a file that is removed from its name, and a file that gets other data.

`resolve` follows a path.  A path that is made or removed is the only one that a change affects:
this needs that no other name leads to the node in question, which `Sole` says.
-/
import Mathlib.Data.Option.Basic
import Mathlib.Logic.Function.Basic
import Mathlib.Tactic.Common

/-- A directory or a file, with its attributes. -/
inductive FileNode (I N A D : Type) where
  | dir (attr : A) (entries : N → Option I)
  | file (attr : A) (data : D)

/-- Nodes by number. -/
abbrev FileTree (I N A D : Type) := I → Option (FileNode I N A D)

namespace FileTree

variable {I N A D : Type}

/-! ## 1. Reading -/

/-- Node `d` is a directory with these entries. -/
def DirAt (t : FileTree I N A D) (d : I) (entries : N → Option I) : Prop :=
  ∃ attr, t d = some (.dir attr entries)

/-- What directory `d` has under a name. -/
def child (t : FileTree I N A D) (d : I) (name : N) : Option I :=
  match t d with
  | some (.dir _ entries) => entries name
  | _ => none

/-- The node at the end of a path from node `i`. -/
def resolve (t : FileTree I N A D) : List N → I → Option I
  | [], i => some i
  | name :: path, i => (t.child i name).bind (resolve t path)

theorem DirAt.child {t : FileTree I N A D} {d : I} {entries : N → Option I}
    (h : t.DirAt d entries) (name : N) : t.child d name = entries name := by
  obtain ⟨attr, hd⟩ := h
  rw [FileTree.child, hd]

theorem resolve_append (t : FileTree I N A D) (path path' : List N) (i : I) :
    t.resolve (path ++ path') i = (t.resolve path i).bind (t.resolve path') := by
  induction path generalizing i with
  | nil => rfl
  | cons name path ih =>
    rw [List.cons_append, resolve, resolve]
    cases t.child i name with
    | none => rfl
    | some k => exact ih k

/-- **Paths see no more of a tree than the names they come to.** -/
theorem resolve_congr_on {t t' : FileTree I N A D} {P : I → Prop}
    (h : ∀ d name, P d → t'.child d name = t.child d name)
    (hP : ∀ d name k, P d → t.child d name = some k → P k) (path : List N) {i : I} (hi : P i) :
    t'.resolve path i = t.resolve path i := by
  induction path generalizing i with
  | nil => rfl
  | cons name path ih =>
    rw [resolve, resolve, h i name hi]
    cases hk : t.child i name with
    | none => rfl
    | some k => exact ih (hP i name k hi hk)

theorem resolve_congr {t t' : FileTree I N A D} (h : ∀ d name, t'.child d name = t.child d name)
    (path : List N) (i : I) : t'.resolve path i = t.resolve path i :=
  resolve_congr_on (P := fun _ => True) (fun d name _ => h d name) (fun _ _ _ _ _ => trivial) path
    trivial

/-! ## 2. Changing -/

section Changes

variable [DecidableEq I] [DecidableEq N]

/-- Directory `d` gets `k` under a name, or nothing. -/
def setChild (t : FileTree I N A D) (d : I) (name : N) (k : Option I) : FileTree I N A D :=
  match t d with
  | some (.dir attr entries) =>
    Function.update t d (some (.dir attr (Function.update entries name k)))
  | _ => t

/-- Node `i` is made, and named in directory `d`. -/
def link (t : FileTree I N A D) (d : I) (name : N) (i : I) (n : FileNode I N A D) :
    FileTree I N A D :=
  Function.update (t.setChild d name (some i)) i (some n)

/-- Node `i` is removed, and its name in directory `d`. -/
def unlink (t : FileTree I N A D) (d : I) (name : N) (i : I) : FileTree I N A D :=
  Function.update (t.setChild d name none) i none

omit [DecidableEq N] in
/-- File `i` gets other data. -/
def setData (t : FileTree I N A D) (i : I) (data : D) : FileTree I N A D :=
  match t i with
  | some (.file attr _) => Function.update t i (some (.file attr data))
  | _ => t

omit [DecidableEq I] [DecidableEq N] in
/-- Every file gets other data. -/
def mapData (t : FileTree I N A D) (f : I → D → D) : FileTree I N A D := fun i =>
  (t i).map fun
    | .file attr data => .file attr (f i data)
    | .dir attr entries => .dir attr entries

omit [DecidableEq I] [DecidableEq N] in
theorem DirAt.ne {t : FileTree I N A D} {d i : I} {entries : N → Option I} (h : t.DirAt d entries)
    (hi : t i = none) : d ≠ i := by
  rintro rfl
  obtain ⟨attr, h⟩ := h
  rw [hi] at h
  cases h

theorem setChild_eq {t : FileTree I N A D} {d : I} {attr : A} {entries : N → Option I}
    (h : t d = some (.dir attr entries)) (name : N) (k : Option I) : t.setChild d name k =
      Function.update t d (some (.dir attr (Function.update entries name k))) := by
  rw [setChild, h]

omit [DecidableEq N] in
theorem setData_eq {t : FileTree I N A D} {i : I} {attr : A} {old : D}
    (h : t i = some (.file attr old)) (data : D) :
    t.setData i data = Function.update t i (some (.file attr data)) := by
  rw [setData, h]

/-- The names after a directory has changed. -/
theorem child_setChild {t : FileTree I N A D} {d : I} {entries : N → Option I}
    (hd : t.DirAt d entries) (name : N) (k : Option I) (e : I) (name' : N) :
    (t.setChild d name k).child e name' =
      if e = d ∧ name' = name then k else t.child e name' := by
  obtain ⟨attr, hd⟩ := hd
  rw [setChild_eq hd]
  by_cases he : e = d
  · subst he
    simp only [child, hd, Function.update_self, true_and, Function.update_apply]
  · simp only [child, Function.update_of_ne he, he, false_and, if_false]

/-- A node without names. -/
def FileNode.Nameless (n : FileNode I N A D) : Prop :=
  ∀ attr entries, n = .dir attr entries → ∀ name, entries name = none

/-- The names once a node without names has been made. -/
theorem child_link {t : FileTree I N A D} {d i : I} {entries : N → Option I}
    {n : FileNode I N A D} (hd : t.DirAt d entries) (hi : t i = none)
    (hn : FileNode.Nameless n) (name : N) (e : I) (name' : N) :
    (t.link d name i n).child e name' =
      if e = d ∧ name' = name then some i else t.child e name' := by
  have hdi := hd.ne hi
  by_cases he : e = i
  · subst he
    have hnone : (t.link d name e n).child e name' = none := by
      simp only [link, child, Function.update_self]
      cases n with
      | dir attr entries => exact hn attr entries rfl name'
      | file attr data => rfl
    rw [hnone, if_neg fun h => hdi h.1.symm, child, hi]
  · rw [← child_setChild hd]
    simp only [link, child, Function.update_of_ne he]

/-- The names once a file has been removed. -/
theorem child_unlink {t : FileTree I N A D} {d i : I} {entries : N → Option I}
    (hd : t.DirAt d entries) (hi : ∀ entries, ¬ t.DirAt i entries) (name : N) (e : I) (name' : N) :
    (t.unlink d name i).child e name' =
      if e = d ∧ name' = name then none else t.child e name' := by
  have hdi : d ≠ i := by
    rintro rfl
    exact hi _ hd
  by_cases he : e = i
  · subst he
    rw [if_neg fun h => hdi h.1.symm]
    simp only [unlink, child, Function.update_self]
    split
    · rename_i attr entries' hdir
      exact absurd ⟨attr, hdir⟩ (hi entries')
    · rfl
  · rw [← child_setChild hd]
    simp only [unlink, child, Function.update_of_ne he]

omit [DecidableEq N] in
/-- Other data is no other name. -/
theorem child_setData (t : FileTree I N A D) (i : I) (data : D) (e : I) (name : N) :
    (t.setData i data).child e name = t.child e name := by
  unfold setData
  split
  · rename_i attr old hi
    by_cases he : e = i
    · subst he
      simp only [child, Function.update_self, hi]
    · simp only [child, Function.update_of_ne he]
  · rfl

omit [DecidableEq I] [DecidableEq N] in
theorem child_mapData (t : FileTree I N A D) (f : I → D → D) (e : I) (name : N) :
    (t.mapData f).child e name = t.child e name := by
  simp only [child, mapData]
  rcases t e with _ | _ | _ <;> rfl

/-! ## 3. Paths after a change -/

/-- No name but `name` in directory `d` leads to node `i`. -/
def Sole (t : FileTree I N A D) (d : I) (name : N) (i : I) : Prop :=
  ∀ e name', t.child e name' = some i → e = d ∧ name' = name

omit [DecidableEq I] [DecidableEq N] in
/-- The paths to a node are those to its directory, and its name. -/
theorem Sole.resolve_iff {t : FileTree I N A D} {d i : I} {name : N} (h : t.Sole d name i)
    (hi : t.child d name = some i) (path : List N) {r : I} (hr : r ≠ i) :
    t.resolve path r = some i ↔ ∃ up, path = up ++ [name] ∧ t.resolve up r = some d := by
  constructor
  · intro hres
    rcases List.eq_nil_or_concat path with rfl | ⟨up, last, rfl⟩
    · exact absurd (Option.some.inj hres) hr
    · rw [List.concat_eq_append, resolve_append, Option.bind_eq_some_iff] at hres
      obtain ⟨e, he, hlast⟩ := hres
      rw [resolve, Option.bind_eq_some_iff] at hlast
      obtain ⟨k, hk, hki⟩ := hlast
      cases hki
      obtain ⟨rfl, rfl⟩ := h e last hk
      exact ⟨up, List.concat_eq_append, he⟩
  · rintro ⟨up, rfl, hup⟩
    rw [resolve_append, hup, Option.bind_some, resolve, hi]
    rfl

/-- A path that does not end at `i` does not pass it either, if `i` is no directory. -/
theorem resolve_eq_of_child {t t' : FileTree I N A D} {d i : I} {name : N} {k : Option I}
    (h : ∀ e name', t'.child e name' = if e = d ∧ name' = name then k else t.child e name')
    (hleaf : ∀ name', t.child i name' = none) (hi : t.child d name = some i)
    (hk : k = none) (hsole : t.Sole d name i) (path : List N) {r : I} (hr : r ≠ i) :
    t'.resolve path r = (t.resolve path r).filter fun j => j ≠ i := by
  subst hk
  induction path generalizing r with
  | nil => simp [resolve, Option.filter, hr]
  | cons name' path ih =>
    rw [resolve, resolve, h]
    split
    · rename_i heq
      obtain ⟨rfl, rfl⟩ := heq
      rw [hi, Option.bind_none, Option.bind_some]
      -- from the node itself a path leads nowhere, or it is at its end
      cases path with
      | nil => simp [resolve, Option.filter]
      | cons name' path => rw [resolve, hleaf, Option.bind_none, Option.filter_none]
    · rename_i hne
      cases hc : t.child r name' with
      | none => rfl
      | some j =>
        refine ih ?_
        rintro rfl
        exact hne (hsole r name' hc)

/-- **A file that is removed takes its own path with it, and no other.** -/
theorem resolve_unlink {t : FileTree I N A D} {d i : I} {name : N}
    {entries : N → Option I} (hd : t.DirAt d entries) (hname : entries name = some i)
    (hi : ∀ entries, ¬ t.DirAt i entries) (hsole : t.Sole d name i) (path : List N) {r : I}
    (hr : r ≠ i) :
    (t.unlink d name i).resolve path r = (t.resolve path r).filter fun j => j ≠ i := by
  have hleaf : ∀ name', t.child i name' = none := by
    intro name'
    unfold child
    split
    · rename_i attr entries' hdir
      exact absurd ⟨attr, hdir⟩ (hi entries')
    · rfl
  exact resolve_eq_of_child (child_unlink hd hi name) hleaf (by rw [hd.child, hname]) rfl hsole
    path hr

/-- **A node that is made can be reached by its own path, and by no other**; every other path
leads where it led. -/
theorem resolve_link {t : FileTree I N A D} {d i : I} {name : N} {entries : N → Option I}
    {n : FileNode I N A D} (hd : t.DirAt d entries) (hfree : entries name = none)
    (hi : t i = none) (hn : FileNode.Nameless n) (hto : ∀ e name', t.child e name' ≠ some i)
    (path : List N) {r : I} (hr : r ≠ i) (j : I) :
    (t.link d name i n).resolve path r = some j ↔
      t.resolve path r = some j ∨ j = i ∧ ∃ up, path = up ++ [name] ∧ t.resolve up r = some d := by
  have hchild := child_link hd hi hn name
  have hleaf : ∀ name', (t.link d name i n).child i name' = none := by
    intro name'
    rw [hchild, if_neg fun h => hd.ne hi h.1.symm, child, hi]
  induction path generalizing r with
  | nil => simp [resolve]
  | cons name' path ih =>
    rw [resolve, resolve, hchild]
    split
    · rename_i heq
      obtain ⟨rfl, rfl⟩ := heq
      have hnone : t.child r name' = none := by rw [hd.child, hfree]
      rw [hnone, Option.bind_none, Option.bind_some]
      cases path with
      | nil =>
        rw [resolve, Option.some.injEq]
        constructor
        · rintro rfl
          exact Or.inr ⟨rfl, [], rfl, rfl⟩
        · rintro (h | ⟨rfl, -⟩)
          · cases h
          · rfl
      | cons name'' path =>
        rw [resolve, hleaf, Option.bind_none]
        constructor
        · intro h
          cases h
        · rintro (h | ⟨-, up, hup, hres⟩)
          · cases h
          · -- the new name has nothing below it
            cases up with
            | nil => cases hup
            | cons a up =>
              obtain ⟨rfl, -⟩ := List.cons.inj hup
              rw [resolve, hnone, Option.bind_none] at hres
              cases hres
    · rename_i hne
      cases hc : t.child r name' with
      | none =>
        rw [Option.bind_none]
        constructor
        · intro h
          cases h
        · rintro (h | ⟨-, up, hup, hres⟩)
          · cases h
          · cases up with
            | nil =>
              cases hup
              cases hres
              exact absurd ⟨rfl, rfl⟩ hne
            | cons a up =>
              obtain ⟨rfl, -⟩ := List.cons.inj hup
              rw [resolve, hc, Option.bind_none] at hres
              cases hres
      | some k =>
        have hki : k ≠ i := by
          rintro rfl
          exact hto r name' hc
        rw [Option.bind_some, Option.bind_some]
        refine (ih hki).trans (or_congr Iff.rfl (and_congr_right fun _ => ?_))
        constructor
        · rintro ⟨up, rfl, hres⟩
          exact ⟨name' :: up, rfl, by rw [resolve, hc, Option.bind_some]; exact hres⟩
        · rintro ⟨up, hup, hres⟩
          cases up with
          | nil =>
            cases hup
            cases hres
            exact absurd ⟨rfl, rfl⟩ hne
          | cons a up =>
            obtain ⟨rfl, rfl⟩ := List.cons.inj hup
            rw [resolve, hc, Option.bind_some] at hres
            exact ⟨up, rfl, hres⟩

end Changes

end FileTree
