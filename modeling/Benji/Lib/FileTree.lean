import Benji.Lib.Proc
import Benji.Lib.Table
import Mathlib.Data.List.Infix
import Mathlib.Data.List.MinMax

/-! A tree of directories and files with the system calls on it: paths without symbolic links,
and no failures but the ones of the paths themselves. -/
namespace Lib

inductive OsError where
  | fileNotFound
  | fileExists
  | notADirectory
  | isADirectory
  deriving DecidableEq

inductive Node (β : Type) where
  | dir
  | file (data : β)

namespace FileTree

structure Entry (ν β : Type) where
  path : List ν
  node : Node β

def isDir {β : Type} : Option (Node β) → Bool
  | some .dir => true
  | _ => false

end FileTree

open FileTree in
/-- Every entry lies in the root or in a directory that is itself an entry. -/
structure FileTree (ν β : Type) [DecidableEq ν] where
  entries : Table (Entry.path : Entry ν β → List ν)
  not_root : ∀ e ∈ entries, e.path ≠ []
  parent : ∀ e ∈ entries, e.path.dropLast = [] ∨ ⟨e.path.dropLast, .dir⟩ ∈ entries

namespace FileTree
variable {ν β : Type} [DecidableEq ν] {t t' : FileTree ν β} {p q rest : List ν} {n : ν}
  {x : Node β} {data : β}

def node (t : FileTree ν β) (p : List ν) : Option (Node β) :=
  if p = [] then some .dir else (t.entries.find? p).map Entry.node

def empty : FileTree ν β := ⟨.empty, fun _ he => absurd he Table.not_mem_empty,
  fun _ he => absurd he Table.not_mem_empty⟩

theorem isDir_eq_true {o : Option (Node β)} : isDir o = true ↔ o = some .dir := by
  cases o with
  | none => simp [isDir]
  | some x => cases x <;> simp [isDir]

@[simp] theorem node_nil : t.node [] = some .dir := rfl

theorem node_empty (hp : p ≠ []) : (empty : FileTree ν β).node p = none := by
  rw [node, if_neg hp]
  rfl

theorem node_eq_some (hp : p ≠ []) : t.node p = some x ↔ ⟨p, x⟩ ∈ t.entries := by
  rw [node, if_neg hp, Option.map_eq_some_iff]
  constructor
  · rintro ⟨⟨q, y⟩, he, rfl⟩
    have hq : q = p := Table.key_of_find? he
    subst hq
    exact Table.mem_of_find? he
  · intro he
    exact ⟨_, Table.find?_of_mem he, rfl⟩

/-- What exists lies in a directory. -/
theorem isDir_parent (h : t.node (p ++ [n]) = some x) : t.node p = some .dir := by
  have hne : p ++ [n] ≠ [] := List.append_ne_nil_of_right_ne_nil _ (List.cons_ne_nil _ _)
  have hparent := t.parent _ ((node_eq_some hne).mp h)
  rw [List.dropLast_concat] at hparent
  by_cases hp : p = []
  · rw [hp, node_nil]
  · exact (node_eq_some hp).mpr (hparent.resolve_left hp)

theorem isDir_above (hne : rest ≠ []) (h : t.node (p ++ rest) = some x) :
    t.node p = some .dir := by
  induction rest using List.reverseRecOn generalizing x with
  | nil => exact absurd rfl hne
  | append_singleton rest n ih =>
    rw [← List.append_assoc] at h
    have hdir := isDir_parent h
    by_cases hrest : rest = []
    · rwa [hrest, List.append_nil] at hdir
    · exact ih hrest hdir

/-- The tree with another node at a path that is free or a file. -/
def put (t : FileTree ν β) (p : List ν) (x : Node β) (hp : p ≠ [])
    (hdir : t.node p.dropLast = some .dir) (hfree : isDir (t.node p) = false) : FileTree ν β where
  entries := t.entries.put ⟨p, x⟩
  not_root e he := by
    rcases Table.mem_put.mp he with rfl | ⟨he, -⟩
    · exact hp
    · exact t.not_root e he
  parent e he := by
    have hkeep : ∀ q, q ≠ p → t.node q = some .dir → q = [] ∨
        (⟨q, .dir⟩ : Entry ν β) ∈ t.entries.put ⟨p, x⟩ := by
      intro q hq hnode
      by_cases hroot : q = []
      · exact .inl hroot
      · exact .inr (Table.mem_put.mpr (.inr ⟨(node_eq_some hroot).mp hnode, hq⟩))
    rcases Table.mem_put.mp he with rfl | ⟨he, hne⟩
    · refine hkeep _ ?_ hdir
      intro heq
      have hlen := congrArg List.length heq
      rw [List.length_dropLast] at hlen
      have hpos := List.length_pos_of_ne_nil hp
      simp only at hlen
      omega
    · have hnode : t.node e.path = some e.node := (node_eq_some (t.not_root e he)).mpr he
      rw [← List.dropLast_append_getLast (t.not_root e he)] at hnode
      refine hkeep _ ?_ (isDir_parent hnode)
      intro heq
      rw [heq] at hnode
      rw [isDir_parent hnode] at hfree
      cases hfree

theorem node_put {hp : p ≠ []} {hdir : t.node p.dropLast = some .dir}
    {hfree : isDir (t.node p) = false} (q : List ν) :
    (t.put p x hp hdir hfree).node q = if q = p then some x else t.node q := by
  by_cases hq : q = p
  · subst hq
    rw [if_pos rfl, node, if_neg hp]
    exact congrArg (Option.map Entry.node) (Table.find?_put_self (a := (⟨q, x⟩ : Entry ν β)))
  · rw [if_neg hq]
    unfold node
    split
    · rfl
    · exact congrArg (Option.map Entry.node) (Table.find?_put_of_ne hq)

/-- The tree without a file. -/
def erase (t : FileTree ν β) (p : List ν) (hfile : isDir (t.node p) = false) : FileTree ν β where
  entries := t.entries.erase p
  not_root e he := t.not_root e (Table.mem_erase.mp he).1
  parent e he := by
    obtain ⟨he, hne⟩ := Table.mem_erase.mp he
    by_cases hroot : e.path.dropLast = []
    · exact .inl hroot
    · have hdir := (t.parent e he).resolve_left hroot
      refine .inr (Table.mem_erase.mpr ⟨hdir, ?_⟩)
      intro heq
      have hnode := (node_eq_some hroot).mpr hdir
      rw [show e.path.dropLast = p from heq] at hnode
      rw [hnode] at hfile
      cases hfile

theorem node_erase {hfile : isDir (t.node p) = false} (q : List ν) :
    (t.erase p hfile).node q = if q = p then none else t.node q := by
  by_cases hroot : q = []
  · subst hroot
    have hne : [] ≠ p := by
      rintro rfl
      cases hfile
    rw [if_neg hne, node_nil, node_nil]
  · by_cases hq : q = p
    · subst hq
      rw [if_pos rfl, node, if_neg hroot]
      exact congrArg (Option.map Entry.node) Table.find?_erase_self
    · rw [if_neg hq, node, node, if_neg hroot, if_neg hroot]
      exact congrArg (Option.map Entry.node) (Table.find?_erase_of_ne hq)

/-! ### System calls -/

/-- Follow the components from a directory; each has to be a directory. -/
def resolve (t : FileTree ν β) (dir : List ν) : List ν → Except OsError Unit
  | [] => .ok ()
  | n :: rest =>
    match t.node (dir ++ [n]) with
    | none => .error .fileNotFound
    | some (.file _) => .error .notADirectory
    | some .dir => resolve t (dir ++ [n]) rest

/-- `os.stat`. -/
def stat (t : FileTree ν β) (p : List ν) : Except OsError (Node β) := do
  t.resolve [] p.dropLast
  match t.node p with
  | none => .error .fileNotFound
  | some x => .ok x

/-- `os.path.exists`. -/
def pathExists (t : FileTree ν β) (p : List ν) : Bool := (t.stat p).isOk

/-- `os.path.isdir`. -/
def pathIsdir (t : FileTree ν β) (p : List ν) : Bool := isDir (t.stat p).toOption

/-- `open(p, 'wb')` with a write of everything. -/
def openWrite (p : List ν) (data : β) : Proc OsError (FileTree ν β) Unit := fun t =>
  match t.resolve [] p.dropLast with
  | .error e => some (.error e, t)
  | .ok _ =>
    if h : p ≠ [] ∧ isDir (t.node p.dropLast) = true ∧ isDir (t.node p) = false then
      some (.ok (), t.put p (.file data) h.1 (isDir_eq_true.mp h.2.1) h.2.2)
    else some (.error .isADirectory, t)

/-- `open(p, 'rb')` and a read to the end. -/
def openRead (p : List ν) : Proc OsError (FileTree ν β) β := fun t =>
  match t.stat p with
  | .error e => some (.error e, t)
  | .ok .dir => some (.error .isADirectory, t)
  | .ok (.file data) => some (.ok data, t)

/-- `os.path.getsize`; directories have some size of their own. -/
def getsize (t : FileTree ν β) (size : Option β → ℕ) (p : List ν) : Except OsError ℕ := do
  match ← t.stat p with
  | .dir => return size none
  | .file data => return size (some data)

/-- `os.unlink`. -/
def unlink (p : List ν) : Proc OsError (FileTree ν β) Unit := fun t =>
  match t.stat p with
  | .error e => some (.error e, t)
  | .ok _ =>
    if h : isDir (t.node p) = false then some (.ok (), t.erase p h)
    else some (.error .isADirectory, t)

/-- `os.mkdir`. -/
def mkdir (p : List ν) : Proc OsError (FileTree ν β) Unit := fun t =>
  match t.resolve [] p.dropLast with
  | .error e => some (.error e, t)
  | .ok _ =>
    if h : p ≠ [] ∧ isDir (t.node p.dropLast) = true ∧ (t.node p).isNone then
      some (.ok (), t.put p .dir h.1 (isDir_eq_true.mp h.2.1) (by
        rw [Option.isNone_iff_eq_none.mp h.2.2]
        rfl))
    else some (.error .fileExists, t)

/-- The end of `os.makedirs` with `exist_ok=True`. -/
def mkdirExistOk (p : List ν) : Proc OsError (FileTree ν β) Unit :=
  Proc.tryExcept (mkdir p) fun e => do
    let t ← Proc.get
    if t.pathIsdir p then pure () else Proc.raise e

def makedirsReversed : List ν → Proc OsError (FileTree ν β) Unit
  | [] => mkdirExistOk []
  | n :: head => do
    let t ← Proc.get
    if t.pathExists head.reverse then mkdirExistOk (n :: head).reverse
    else
      Proc.tryExcept (makedirsReversed head) fun e =>
        if e = .fileExists then pure () else Proc.raise e
      mkdirExistOk (n :: head).reverse

/-- `os.makedirs` with `exist_ok=True`. -/
def makedirs (p : List ν) : Proc OsError (FileTree ν β) Unit := makedirsReversed p.reverse

/-! ### What they do -/

/-- No file is in the way of the path. -/
def Passable (t : FileTree ν β) (p : List ν) : Prop :=
  ∀ q, q <+: p → ∀ data, t.node q ≠ some (.file data)

theorem Passable.above (h : t.Passable p) (hq : q <+: p) : t.Passable q :=
  fun r hr => h r (hr.trans hq)

theorem resolve_of_dir {dir : List ν} (h : t.node (dir ++ rest) = some .dir) :
    t.resolve dir rest = .ok () := by
  induction rest generalizing dir with
  | nil => rfl
  | cons n rest ih =>
    rw [List.append_cons] at h
    have hdir : t.node (dir ++ [n]) = some .dir := by
      by_cases hrest : rest = []
      · rwa [hrest, List.append_nil] at h
      · exact isDir_above hrest h
    rw [resolve, hdir]
    exact ih h

theorem resolve_of_passable {dir : List ν} (hdir : t.node dir = some .dir)
    (hp : t.Passable (dir ++ rest)) (h : t.node (dir ++ rest) ≠ some .dir) :
    t.resolve dir rest = .error .fileNotFound := by
  induction rest generalizing dir with
  | nil =>
    rw [List.append_nil] at h
    exact absurd hdir h
  | cons n rest ih =>
    rw [List.append_cons] at hp h
    rw [resolve]
    split
    · rfl
    · rename_i data hnode
      exact absurd hnode (hp _ (List.prefix_append _ _) data)
    · rename_i hnode
      exact ih hnode hp h

theorem stat_eq_ok : t.stat p = .ok x ↔ t.node p = some x := by
  constructor
  · intro h
    unfold stat at h
    cases hresolve : t.resolve [] p.dropLast with
    | error e =>
      rw [hresolve] at h
      cases h
    | ok _ =>
      rw [hresolve] at h
      cases hnode : t.node p with
      | none =>
        rw [hnode] at h
        cases h
      | some y =>
        rw [hnode] at h
        cases h
        rfl
  · intro h
    have hdir : t.node p.dropLast = some .dir := by
      by_cases hp : p = []
      · rw [hp]
        rfl
      · rw [← List.dropLast_append_getLast hp] at h
        exact isDir_parent h
    have hresolve : t.resolve [] p.dropLast = .ok () := resolve_of_dir hdir
    rw [stat, hresolve, h]
    rfl

theorem stat_eq_error (h : t.node p = none) : ∃ e, t.stat p = .error e := by
  cases hs : t.stat p with
  | error e => exact ⟨e, rfl⟩
  | ok x =>
    rw [stat_eq_ok.mp hs] at h
    cases h

theorem pathExists_eq : t.pathExists p = (t.node p).isSome := by
  unfold pathExists
  cases hnode : t.node p with
  | none =>
    obtain ⟨e, he⟩ := stat_eq_error hnode
    rw [he]
    rfl
  | some x =>
    rw [stat_eq_ok.mpr hnode]
    rfl

theorem pathIsdir_eq : t.pathIsdir p = isDir (t.node p) := by
  unfold pathIsdir
  cases hnode : t.node p with
  | none =>
    obtain ⟨e, he⟩ := stat_eq_error hnode
    rw [he]
    rfl
  | some x =>
    rw [stat_eq_ok.mpr hnode]
    rfl

/-- Writing a file in a directory. -/
theorem openWrite_returns (data : β) (hp : p ≠ []) (hdir : t.node p.dropLast = some .dir)
    (hfree : isDir (t.node p) = false) : ∃ t', (openWrite p data).Returns t () t' ∧
      ∀ q, t'.node q = if q = p then some (.file data) else t.node q := by
  have hresolve : t.resolve [] p.dropLast = .ok () := resolve_of_dir hdir
  refine ⟨t.put p (.file data) hp hdir hfree, ?_, node_put⟩
  unfold Proc.Returns openWrite
  rw [hresolve]
  dsimp only
  rw [dif_pos ⟨hp, isDir_eq_true.mpr hdir, hfree⟩]

theorem openWrite_raises (data : β) (hp : t.Passable p.dropLast)
    (hdir : t.node p.dropLast ≠ some .dir) :
    (openWrite p data).Raises t .fileNotFound t := by
  have hresolve : t.resolve [] p.dropLast = .error .fileNotFound :=
    resolve_of_passable node_nil hp hdir
  unfold Proc.Raises openWrite
  rw [hresolve]

theorem unlink_returns (h : t.node p = some (.file data)) : ∃ t', (unlink p).Returns t () t' ∧
    ∀ q, t'.node q = if q = p then none else t.node q := by
  have hfile : isDir (t.node p) = false := by
    rw [h]
    rfl
  refine ⟨t.erase p hfile, ?_, node_erase⟩
  unfold Proc.Returns unlink
  rw [stat_eq_ok.mpr h]
  dsimp only
  rw [dif_pos hfile]

theorem openRead_returns (h : t.node p = some (.file data)) : (openRead p).Returns t data t := by
  unfold Proc.Returns openRead
  rw [stat_eq_ok.mpr h]

theorem mkdirExistOk_returns (hp : p ≠ []) (hdir : t.node p.dropLast = some .dir)
    (hpass : t.Passable p) : ∃ t', (mkdirExistOk p).Returns t () t' ∧
      ∀ q, t'.node q = if q = p then some .dir else t.node q := by
  have hresolve : t.resolve [] p.dropLast = .ok () := resolve_of_dir hdir
  unfold mkdirExistOk
  simp only [Proc.returns_tryExcept]
  by_cases hnone : t.node p = none
  · have hfree : isDir (t.node p) = false := by
      rw [hnone]
      rfl
    refine ⟨t.put p .dir hp hdir hfree, .inl ?_, node_put⟩
    unfold Proc.Returns mkdir
    rw [hresolve]
    dsimp only
    rw [dif_pos ⟨hp, isDir_eq_true.mpr hdir, Option.isNone_iff_eq_none.mpr hnone⟩]
  · have hnode : t.node p = some .dir := by
      cases hx : t.node p with
      | none => exact absurd hx hnone
      | some x =>
        cases x with
        | dir => rfl
        | file data => exact absurd hx (hpass p List.prefix_rfl data)
    have hmkdir : (mkdir p).Raises t .fileExists t := by
      unfold Proc.Raises mkdir
      rw [hresolve]
      dsimp only
      rw [dif_neg fun h => hnone (Option.isNone_iff_eq_none.mp h.2.2)]
    refine ⟨t, .inr ⟨_, _, hmkdir, ?_⟩, fun q => ?_⟩
    · rw [Proc.returns_bind]
      refine ⟨t, t, Proc.returns_get.mpr ⟨rfl, rfl⟩, ?_⟩
      have hisdir : t.pathIsdir p = true := by
        rw [pathIsdir_eq, hnode]
        rfl
      rw [hisdir, if_pos rfl]
      exact Proc.returns_pure.mpr ⟨rfl, rfl⟩
    · split
      · rename_i hq
        rw [hq, hnode]
      · rfl

theorem Passable.dir_of_isSome (h : t.Passable p) (hsome : (t.node p).isSome) :
    t.node p = some .dir := by
  cases hx : t.node p with
  | none =>
    rw [hx] at hsome
    cases hsome
  | some x =>
    cases x with
    | dir => rfl
    | file data => exact absurd hx (h p List.prefix_rfl data)

/-- Where the head is there, its prefixes are. -/
theorem node_above (h : t.node p = some .dir) (hq : q <+: p) : t.node q = some .dir := by
  obtain ⟨rest, rfl⟩ := hq
  by_cases hnil : rest = []
  · rwa [hnil, List.append_nil] at h
  · exact isDir_above hnil h

theorem mkdirExistOk_append {u : FileTree ν β} {head : List ν} (hpass : t.Passable (head ++ [n]))
    (hnode : ∀ q, u.node q = if q <+: head then some .dir else t.node q) :
    ∃ t', (mkdirExistOk (head ++ [n])).Returns u () t' ∧
      ∀ q, t'.node q = if q <+: head ++ [n] then some .dir else t.node q := by
  have hdir : u.node (head ++ [n]).dropLast = some .dir := by
    rw [List.dropLast_concat, hnode, if_pos List.prefix_rfl]
  have hpass' : u.Passable (head ++ [n]) := by
    intro q hq data
    rw [hnode]
    split
    · nofun
    · exact hpass q hq data
  obtain ⟨t', ht', hnode'⟩ := mkdirExistOk_returns
    (List.append_ne_nil_of_right_ne_nil _ (List.cons_ne_nil n [])) hdir hpass'
  refine ⟨t', ht', fun q => ?_⟩
  rw [hnode', hnode]
  by_cases hq : q = head ++ [n]
  · rw [if_pos hq, if_pos (hq ▸ List.prefix_rfl)]
  · rw [if_neg hq]
    congr 1
    rw [List.prefix_concat_iff, or_iff_right hq]

theorem makedirsReversed_returns {r : List ν} (hpass : t.Passable r.reverse) :
    ∃ t', (makedirsReversed r).Returns t () t' ∧
      ∀ q, t'.node q = if q <+: r.reverse then some .dir else t.node q := by
  induction r with
  | nil =>
    refine ⟨t, rfl, fun q => ?_⟩
    split
    · rename_i hq
      rw [List.prefix_nil.mp hq, node_nil]
    · rfl
  | cons n head ih =>
    rw [List.reverse_cons] at hpass ⊢
    have hhead : t.Passable head.reverse := hpass.above (List.prefix_append _ _)
    by_cases hsome : (t.node head.reverse).isSome
    · have hsame : ∀ q, t.node q = if q <+: head.reverse then some .dir else t.node q := by
        intro q
        split
        · rename_i hq
          exact node_above (hhead.dir_of_isSome hsome) hq
        · rfl
      obtain ⟨t', ht', hnode⟩ := mkdirExistOk_append hpass hsame
      refine ⟨t', ?_, hnode⟩
      refine Proc.returns_bind.mpr ⟨t, t, rfl, ?_⟩
      rw [pathExists_eq, if_pos hsome, List.reverse_cons]
      exact ht'
    · obtain ⟨u, hu, hmade⟩ := ih hhead
      obtain ⟨t', ht', hnode⟩ := mkdirExistOk_append hpass hmade
      refine ⟨t', ?_, hnode⟩
      refine Proc.returns_bind.mpr ⟨t, t, rfl, ?_⟩
      rw [pathExists_eq, if_neg hsome]
      refine Proc.returns_bind.mpr ⟨(), u, Proc.returns_tryExcept.mpr (.inl hu), ?_⟩
      rw [List.reverse_cons]
      exact ht'

theorem makedirs_returns (hpass : t.Passable p) : ∃ t', (makedirs p).Returns t () t' ∧
    ∀ q, t'.node q = if q <+: p then some .dir else t.node q := by
  rw [← List.reverse_reverse p] at hpass ⊢
  unfold makedirs
  rw [List.reverse_reverse]
  exact makedirsReversed_returns hpass

/-! ### Walking the tree -/

/-- The names of the directories in a directory, or those of the files in it. -/
def namesIn (t : FileTree ν β) (dirs : Bool) (dir : List ν) : List ν :=
  (t.entries.rows.filter fun e => e.path.dropLast = dir && isDir (some e.node) = dirs).filterMap
    fun e => e.path.getLast?

section Walk
variable {τ : Type} (join : τ → ν → τ)

/-- `os.walk` from the top down: the directories, as they are joined on the way, with the names of
their files. -/
def walk (t : FileTree ν β) : ℕ → τ → List ν → List (τ × List ν)
  | 0, _, _ => []
  | fuel + 1, root, dir =>
    if t.pathIsdir dir then
      (root, t.namesIn false dir) ::
        (t.namesIn true dir).flatMap fun n => walk t fuel (join root n) (dir ++ [n])
    else []

/-- The files that a walk comes upon, joined to their directories. -/
def filesBelow (t : FileTree ν β) (fuel : ℕ) (root : τ) (dir : List ν) : List τ :=
  (walk join t fuel root dir).flatMap fun entry => entry.2.map (join entry.1)

/-- How deep the tree is. -/
def height (t : FileTree ν β) : ℕ := (t.entries.rows.map fun e => e.path.length).foldr max 0

end Walk

theorem mem_namesIn {dirs : Bool} {dir : List ν} : n ∈ t.namesIn dirs dir ↔
    ∃ x, t.node (dir ++ [n]) = some x ∧ isDir (some x) = dirs := by
  have hne : dir ++ [n] ≠ [] := List.append_ne_nil_of_right_ne_nil _ (List.cons_ne_nil n [])
  unfold namesIn
  rw [List.mem_filterMap]
  constructor
  · rintro ⟨e, he, hlast⟩
    simp only [List.mem_filter, Bool.and_eq_true, decide_eq_true_eq] at he
    obtain ⟨he, rfl, hdirs⟩ := he
    refine ⟨e.node, (node_eq_some hne).mpr ?_, hdirs⟩
    rw [List.dropLast_append_getLast? n hlast]
    exact he
  · rintro ⟨x, hx, hdirs⟩
    refine ⟨⟨dir ++ [n], x⟩, ?_, List.getLast?_concat⟩
    simp only [List.mem_filter, Bool.and_eq_true, decide_eq_true_eq]
    exact ⟨(node_eq_some hne).mp hx, List.dropLast_concat, hdirs⟩

theorem nodup_namesIn (dirs : Bool) (dir : List ν) : (t.namesIn dirs dir).Nodup := by
  apply List.Nodup.of_map (dir ++ [·])
  have hpath : (t.namesIn dirs dir).map (dir ++ [·]) = (t.entries.rows.filter fun e =>
      e.path.dropLast = dir && isDir (some e.node) = dirs).map Entry.path := by
    rw [namesIn, List.map_filterMap, ← List.filterMap_eq_map]
    apply List.filterMap_congr
    intro e he
    simp only [List.mem_filter, Bool.and_eq_true, decide_eq_true_eq] at he
    obtain ⟨he, rfl, -⟩ := he
    rw [List.getLast?_eq_some_getLast (t.not_root e he), Option.map_some,
      List.dropLast_append_getLast]
    rfl
  rw [hpath]
  exact t.entries.nodup.sublist ((List.filter_sublist).map Entry.path)

theorem length_le_height (h : t.node p = some x) : p.length ≤ t.height := by
  by_cases hp : p = []
  · rw [hp]
    exact Nat.zero_le _
  · have hmem := List.mem_map_of_mem (f := fun e : Entry ν β => e.path.length)
      ((node_eq_some hp).mp h)
    exact List.le_max_of_le' 0 hmem le_rfl

section Walk
variable {τ : Type} {join : τ → ν → τ} {fuel : ℕ} {root : τ} {dir : List ν}

theorem filesBelow_succ (h : t.node dir = some .dir) :
    t.filesBelow join (fuel + 1) root dir = (t.namesIn false dir).map (join root) ++
      (t.namesIn true dir).flatMap fun n => t.filesBelow join fuel (join root n) (dir ++ [n]) := by
  have hisdir : t.pathIsdir dir = true := by
    rw [pathIsdir_eq, h]
    rfl
  rw [filesBelow, walk, if_pos hisdir, List.flatMap_cons, List.flatMap_assoc]
  rfl

theorem filesBelow_of_not_dir (h : t.node dir ≠ some .dir) :
    t.filesBelow join fuel root dir = [] := by
  cases fuel with
  | zero => rfl
  | succ fuel =>
    have hisdir : ¬ t.pathIsdir dir = true := by
      rw [pathIsdir_eq, isDir_eq_true]
      exact h
    rw [filesBelow, walk, if_neg hisdir]
    rfl

omit [DecidableEq ν] in
theorem foldl_snoc (rel r : List ν) : rel.foldl (fun r n => r ++ [n]) r = r ++ rel := by
  induction rel generalizing r with
  | nil => rw [List.foldl_nil, List.append_nil]
  | cons m rel ih => rw [List.foldl_cons, ih, List.append_assoc, List.singleton_append]

/-- A walk joins what a walk with bare paths finds. -/
theorem filesBelow_eq_map (join : τ → ν → τ) (root : τ) : t.filesBelow join fuel root dir =
    (t.filesBelow (fun r n => r ++ [n]) fuel [] dir).map fun rel => rel.foldl join root := by
  induction fuel generalizing τ dir with
  | zero => rfl
  | succ fuel ih =>
    by_cases hdir : t.node dir = some .dir
    · rw [filesBelow_succ hdir, filesBelow_succ hdir, List.map_append, List.map_map,
        List.map_flatMap]
      congr 1
      apply List.flatMap_congr
      intro n hn
      rw [ih join, ih (fun r n => r ++ [n]) ([] ++ [n]), List.map_map]
      apply List.map_congr_left
      intro rel hrel
      rw [Function.comp_apply, foldl_snoc, List.nil_append, List.singleton_append, List.foldl_cons]
    · rw [filesBelow_of_not_dir hdir, filesBelow_of_not_dir hdir, List.map_nil]

theorem mem_filesBelow {y : τ} : y ∈ t.filesBelow join fuel root dir ↔
    ∃ rel n data, rel.length < fuel ∧ t.node (dir ++ rel ++ [n]) = some (.file data) ∧
      y = (rel ++ [n]).foldl join root := by
  induction fuel generalizing root dir with
  | zero => simp [filesBelow, walk]
  | succ fuel ih =>
    by_cases hdir : t.node dir = some .dir
    · rw [filesBelow_succ hdir, List.mem_append, List.mem_map, List.mem_flatMap]
      constructor
      · rintro (⟨n, hn, rfl⟩ | ⟨m, hm, hy⟩)
        · obtain ⟨x, hx, hfile⟩ := mem_namesIn.mp hn
          cases x with
          | dir => cases hfile
          | file data => exact ⟨[], n, data, Nat.succ_pos _, by simpa using hx, rfl⟩
        · obtain ⟨rel, n, data, hlen, hnode, rfl⟩ := ih.mp hy
          exact ⟨m :: rel, n, data, Nat.succ_lt_succ hlen, by simpa using hnode, rfl⟩
      · rintro ⟨rel, n, data, hlen, hnode, rfl⟩
        cases rel with
        | nil =>
          refine .inl ⟨n, mem_namesIn.mpr ⟨.file data, by simpa using hnode, rfl⟩, rfl⟩
        | cons m rel =>
          have hm : t.node (dir ++ [m]) = some .dir := by
            have hbelow : t.node (dir ++ [m] ++ (rel ++ [n])) = some (.file data) := by
              simpa using hnode
            exact isDir_above (by simp) hbelow
          refine .inr ⟨m, mem_namesIn.mpr ⟨.dir, hm, rfl⟩, ih.mpr ?_⟩
          exact ⟨rel, n, data, Nat.lt_of_succ_lt_succ hlen, by simpa using hnode, rfl⟩
    · rw [filesBelow_of_not_dir hdir]
      constructor
      · nofun
      · rintro ⟨rel, n, data, -, hnode, -⟩
        rw [List.append_assoc] at hnode
        exact absurd (isDir_above (by simp) hnode) hdir

/-- No file is found twice. -/
theorem nodup_filesBelow {r : List ν} : (t.filesBelow (fun r n => r ++ [n]) fuel r dir).Nodup := by
  induction fuel generalizing r dir with
  | zero => exact List.nodup_nil
  | succ fuel ih =>
    by_cases hdir : t.node dir = some .dir
    · rw [filesBelow_succ hdir, List.nodup_append]
      refine ⟨?_, ?_, ?_⟩
      · exact (nodup_namesIn false dir).map fun a b hab => by simpa using hab
      · refine List.nodup_flatMap.mpr ⟨fun _ _ => ih, (nodup_namesIn true dir).imp ?_⟩
        intro a b hab y ha hb
        obtain ⟨rel, n, _, _, _, rfl⟩ := mem_filesBelow.mp ha
        obtain ⟨rel', n', _, _, _, heq⟩ := mem_filesBelow.mp hb
        rw [foldl_snoc, foldl_snoc, List.append_assoc, List.append_assoc,
          List.append_cancel_left_eq] at heq
        exact hab (List.cons.inj heq).1
      · rintro y hy _ hz rfl
        obtain ⟨n, -, rfl⟩ := List.mem_map.mp hy
        obtain ⟨m, -, hm⟩ := List.mem_flatMap.mp hz
        obtain ⟨rel, n', _, _, _, heq⟩ := mem_filesBelow.mp hm
        rw [foldl_snoc, List.append_assoc, List.append_cancel_left_eq] at heq
        simpa using congrArg List.length heq
    · rw [filesBelow_of_not_dir hdir]
      exact List.nodup_nil

end Walk

end FileTree
end Lib
