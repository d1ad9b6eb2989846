import Benji.Storage.FileKeys

/-! Whatever is called in whatever order, the file storage answers as a map from keys to bytes
does, as long as no key is a directory on the way to another. -/
namespace Benji
open Lib

namespace FileStorage
variable {s : FileStorage} {keys : Set Key} {t : Tree} {k l : Key} {data : Bytes} {text : Text}
  {top : Option Name} {dirSize : ℕ}

theorem filename_ne_nil (s : FileStorage) (k : Key) : s.filename k ≠ [] :=
  List.append_ne_nil_of_right_ne_nil _ k.ne_nil

theorem filename_inj : s.filename k = s.filename l ↔ k = l := by
  constructor
  · intro h
    have hnames := List.append_cancel_left h
    cases k
    cases l
    cases hnames
    rfl
  · rintro rfl
    rfl

theorem files_text_eq_some :
    s.files t k.text = some data ↔ t.node (s.filename k) = some (.file data) := by
  rw [files, Key.ofText?_text, Option.bind_some]
  split
  · rename_i heq
    rw [heq]
    simp
  · rename_i hno
    constructor
    · nofun
    · intro h
      exact absurd h (hno data)

theorem files_eq_some : s.files t text = some data ↔
    ∃ k : Key, text = k.text ∧ t.node (s.filename k) = some (.file data) := by
  constructor
  · intro h
    obtain ⟨k, hk, -⟩ := Option.bind_eq_some_iff.mp h
    have htext := ofText?_eq_some.mp hk
    subst htext
    exact ⟨k, rfl, files_text_eq_some.mp h⟩
  · rintro ⟨k, rfl, h⟩
    exact files_text_eq_some.mpr h

/-- What a key is where the directories are clear. -/
theorem Clear.node (h : Clear s keys t) (hk : k ∈ keys) :
    t.node (s.filename k) = none ∨ ∃ data, t.node (s.filename k) = some (.file data) := by
  have hdir := (h k hk).2
  cases hx : t.node (s.filename k) with
  | none => exact .inl rfl
  | some x =>
    cases x with
    | dir =>
      rw [hx] at hdir
      cases hdir
    | file data => exact .inr ⟨data, rfl⟩

/-- The file is written, and its directories are there afterwards. -/
theorem writeObject_returns (hpass : t.Passable (s.filename k).dropLast)
    (hfree : FileTree.isDir (t.node (s.filename k)) = false) :
    ∃ t', (s.writeObject k data).Returns t () t' ∧ ∀ q, t'.node q =
      if q = s.filename k then some (.file data)
      else if q <+: (s.filename k).dropLast then some .dir else t.node q := by
  have hne := filename_ne_nil s k
  by_cases hdir : t.node (s.filename k).dropLast = some .dir
  · obtain ⟨t', ht', hnode⟩ := FileTree.openWrite_returns data hne hdir hfree
    refine ⟨t', Proc.returns_tryExcept.mpr (.inl ht'), fun q => ?_⟩
    rw [hnode]
    split
    · rfl
    · split
      · rename_i hq
        exact FileTree.node_above hdir hq
      · rfl
  · have hraises := FileTree.openWrite_raises data hpass hdir
    obtain ⟨u, hu, hmade⟩ := FileTree.makedirs_returns hpass
    have hdir' : u.node (s.filename k).dropLast = some .dir := by
      rw [hmade, if_pos List.prefix_rfl]
    have hself : ¬ s.filename k <+: (s.filename k).dropLast := by
      intro h
      have hlen := h.length_le
      rw [List.length_dropLast] at hlen
      have hpos := List.length_pos_of_ne_nil hne
      omega
    have hfree' : FileTree.isDir (u.node (s.filename k)) = false := by
      rw [hmade, if_neg hself]
      exact hfree
    obtain ⟨t', ht', hnode⟩ := FileTree.openWrite_returns data hne hdir' hfree'
    refine ⟨t', Proc.returns_tryExcept.mpr (.inr ⟨_, t, hraises, ?_⟩), fun q => ?_⟩
    · rw [if_pos rfl]
      exact Proc.returns_bind.mpr ⟨(), u, hu, ht'⟩
    · rw [hnode, hmade]

/-! ### Listing -/

theorem foldl_walk (root : Text × List Name) (rel : List Name) :
    rel.foldl (fun r n => (Path.join r.1 n.val, r.2 ++ [n])) root =
      (rel.foldl (fun r n => Path.join r n.val) root.1, root.2 ++ rel) := by
  induction rel generalizing root with
  | nil => rw [List.foldl_nil, List.foldl_nil, List.append_nil]
  | cons n rel ih => 
    rw [List.foldl_cons, ih, List.foldl_cons, List.append_assoc, List.singleton_append]

theorem listTop_eq (s : FileStorage) (top : Option Name) :
    s.listTop top = s.path ++ topText top := by
  cases top with
  | none => rw [listTop, topText, List.append_nil]
  | some top =>
    have hhead : (top.val ++ ['/']).head? ≠ some '/' := by
      rw [List.head?_append_of_ne_nil _ (name_ne_nil top)]
      exact head_name top
    rw [listTop, Path.join, if_neg hhead, if_pos s.ends]
    rfl

theorem listTop_ends (s : FileStorage) (top : Option Name) :
    s.listTop top = [] ∨ (s.listTop top).getLast? = some '/' := by
  rw [listTop_eq]
  cases top with
  | none =>
    rw [topText, List.append_nil]
    exact s.ends
  | some top =>
    right
    rw [topText, ← List.append_assoc, List.getLast?_concat]

/-- The names of the keys that start with the text. -/
theorem topText_le_iff : topText top <+: k.text ↔ ∃ rest, rest ≠ [] ∧
    k.names = top.toList ++ rest := by
  cases top with
  | none => exact ⟨fun _ => ⟨k.names, k.ne_nil, rfl⟩, fun _ => List.nil_prefix⟩
  | some top => exact topText_some_le_iff

theorem topText_append (top : Option Name) {rest : List Name} (h : rest ≠ []) :
    topText top ++ slashed rest = slashed (top.toList ++ rest) := by
  cases top with
  | none => rfl
  | some top =>
    rw [Option.toList_some, List.singleton_append, slashed_cons h, topText, List.append_assoc]
    rfl

/-- What a walk calls the path it has come to. -/
theorem foldl_walk_top (s : FileStorage) (top : Option Name) {rest : List Name} (h : rest ≠ []) :
    rest.foldl (fun r n => (Path.join r.1 n.val, r.2 ++ [n]))
        (s.listTop top, s.base ++ top.toList) =
      (s.path ++ slashed (top.toList ++ rest), s.base ++ (top.toList ++ rest)) := by
  obtain ⟨m, ms, rfl⟩ := List.exists_cons_of_ne_nil h
  rw [foldl_walk, foldl_join (listTop_ends s top), listTop_eq, List.append_assoc,
    topText_append top h, List.append_assoc]

/-- A walk comes upon the files of the keys below its top. -/
theorem mem_walkFiles {file : Text × List Name} : file ∈ s.walkFiles t top ↔
    ∃ k : Key, ∃ data, file = (s.path ++ k.text, s.filename k) ∧ topText top <+: k.text ∧
      t.node (s.filename k) = some (.file data) := by
  unfold walkFiles
  rw [FileTree.mem_filesBelow]
  constructor
  · rintro ⟨rel, n, data, -, hnode, rfl⟩
    have hne : rel ++ [n] ≠ [] := List.append_ne_nil_of_right_ne_nil _ (List.cons_ne_nil n [])
    have hk : top.toList ++ (rel ++ [n]) ≠ [] := List.append_ne_nil_of_right_ne_nil _ hne
    refine ⟨⟨top.toList ++ (rel ++ [n]), hk⟩, data, ?_, ?_, ?_⟩
    · rw [foldl_walk_top s top hne]
      rfl
    · exact topText_le_iff.mpr ⟨rel ++ [n], hne, rfl⟩
    · rw [filename, ← hnode]
      simp only [List.append_assoc]
  · rintro ⟨k, data, rfl, htop, hnode⟩
    obtain ⟨rest, hne, hnames⟩ := topText_le_iff.mp htop
    obtain ⟨rel, n, hrel⟩ : ∃ rel n, rest = rel ++ [n] :=
      ⟨_, _, (List.dropLast_append_getLast hne).symm⟩
    have hfile : t.node (s.base ++ top.toList ++ rel ++ [n]) = some (.file data) := by
      rw [← hnode, filename, hnames, hrel]
      simp only [List.append_assoc]
    refine ⟨rel, n, data, ?_, hfile, ?_⟩
    · have hlen := FileTree.length_le_height hfile
      simp only [List.length_append, List.length_cons, List.length_nil] at hlen
      omega
    · rw [← hrel, foldl_walk_top s top hne, ← hnames]
      rfl

theorem nodup_walkFiles : (s.walkFiles t top).Nodup := by
  unfold walkFiles
  rw [FileTree.filesBelow_eq_map]
  refine FileTree.nodup_filesBelow.map fun a b hab => ?_
  rw [foldl_walk, foldl_walk] at hab
  exact List.append_cancel_left (Prod.mk.inj hab).2

/-- The keys that are listed. -/
def listed (s : FileStorage) (t : Tree) (top : Option Name) : List Text :=
  (s.walkFiles t top).map fun file => file.1.drop s.path.length

theorem enumerates_listed : Enumerates (s.files t) (topText top) (s.listed t top) := by
  constructor
  · refine List.Nodup.map_on ?_ nodup_walkFiles
    intro x hx y hy hxy
    obtain ⟨k, -, rfl, -, -⟩ := mem_walkFiles.mp hx
    obtain ⟨l, -, rfl, -, -⟩ := mem_walkFiles.mp hy
    rw [List.drop_left, List.drop_left, text_inj] at hxy
    rw [hxy]
  · intro text
    rw [listed, List.mem_map, Option.isSome_iff_exists]
    constructor
    · rintro ⟨_, hfile, rfl⟩
      obtain ⟨k, data, rfl, htop, hnode⟩ := mem_walkFiles.mp hfile
      rw [List.drop_left]
      exact ⟨⟨data, files_text_eq_some.mpr hnode⟩, htop⟩
    · rintro ⟨⟨data, hdata⟩, htop⟩
      obtain ⟨k, rfl, hnode⟩ := files_eq_some.mp hdata
      exact ⟨_, mem_walkFiles.mpr ⟨k, data, rfl, htop, hnode⟩, List.drop_left⟩

/-! ### Calls -/

/-- The tree is as it was but for the directory of the storage and those it lies in. -/
def SameElsewhere (s : FileStorage) (t t' : Tree) : Prop :=
  ∀ q, ¬ s.base <+: q → ¬ q <+: s.base → t'.node q = t.node q

theorem answered_of_returns {α : Type} {f : α → Answer} {p : Action α} {a : α} {t' : Tree}
    (h : p.Returns t a t') : answered f p t = some (f a, t') := by
  rw [answered, show p t = _ from h]

theorem answered_of_raises {α : Type} {f : α → Answer} {p : Action α} {e : OsError} {t' : Tree}
    (h : p.Raises t e t') : answered f p t = some (.raised e, t') := by
  rw [answered, show p t = _ from h]

theorem files_put {t' : Tree} (hpass : t.Passable (s.filename k).dropLast)
    (hnode : ∀ q, t'.node q = if q = s.filename k then some (.file data)
      else if q <+: (s.filename k).dropLast then some .dir else t.node q) :
    s.files t' = (s.files t).put k.text data := by
  funext text
  unfold Codec.Files.put
  split
  · rename_i htext
    rw [htext]
    exact files_text_eq_some.mpr (by rw [hnode, if_pos rfl])
  · rename_i htext
    have hiff : ∀ data, s.files t' text = some data ↔ s.files t text = some data := by
      intro data
      rw [files_eq_some, files_eq_some]
      refine exists_congr fun l => and_congr_right fun hl => ?_
      have hne : ¬ s.filename l = s.filename k := by
        intro h
        rw [filename_inj.mp h] at hl
        exact htext hl
      rw [hnode, if_neg hne]
      split
      · rename_i hbelow
        exact ⟨nofun, fun h => absurd h (hpass _ hbelow data)⟩
      · exact Iff.rfl
    exact Option.ext hiff

theorem Clear.write {t' : Tree} (hclear : Clear s keys t) (hsep : Separate keys) (hk : k ∈ keys)
    (hnode : ∀ q, t'.node q = if q = s.filename k then some (.file data)
      else if q <+: (s.filename k).dropLast then some .dir else t.node q) : Clear s keys t' := by
  intro l hl
  obtain ⟨hpass, hfree⟩ := hclear l hl
  constructor
  · intro q hq data'
    rw [hnode]
    split
    · rename_i heq
      -- the new file would be a directory on the way to another key
      have hbelow : s.base ++ k.names <+: s.base ++ l.names := by
        have h := hq.trans (List.dropLast_prefix _)
        rw [heq] at h
        exact h
      have hkl : k = l := hsep k hk l hl ((List.prefix_append_right_inj _).mp hbelow)
      rw [heq, hkl] at hq
      have hlen := hq.length_le
      rw [List.length_dropLast] at hlen
      have hpos := List.length_pos_of_ne_nil (filename_ne_nil s l)
      omega
    · split
      · nofun
      · exact hpass q hq data'
  · rw [hnode]
    split
    · rfl
    · rename_i hne
      split
      · rename_i hbelow
        have h : s.base ++ l.names <+: s.base ++ k.names :=
          hbelow.trans (List.dropLast_prefix _)
        have hlk : l = k := hsep l hl k hk ((List.prefix_append_right_inj _).mp h)
        exact absurd (filename_inj.mpr hlk) hne
      · exact hfree

theorem SameElsewhere.write {t' : Tree}
    (hnode : ∀ q, t'.node q = if q = s.filename k then some (.file data)
      else if q <+: (s.filename k).dropLast then some .dir else t.node q) :
    SameElsewhere s t t' := by
  intro q hbase hq
  have hne : ¬ q = s.filename k := by
    rintro rfl
    exact hbase (List.prefix_append _ _)
  have hbelow : ¬ q <+: (s.filename k).dropLast := by
    intro h
    rcases List.prefix_or_prefix_of_prefix (h.trans (List.dropLast_prefix _))
      (List.prefix_append s.base k.names) with h | h
    · exact hq h
    · exact hbase h
  rw [hnode, if_neg hne, if_neg hbelow]

theorem files_erase {t' : Tree}
    (hnode : ∀ q, t'.node q = if q = s.filename k then none else t.node q) :
    s.files t' = (s.files t).erase k.text := by
  funext text
  unfold Codec.Files.erase
  apply Option.ext
  intro data
  rw [files_eq_some]
  split
  · rename_i htext
    constructor
    · rintro ⟨l, hl, hfile⟩
      rw [← text_inj.mp (htext.symm.trans hl), hnode, if_pos rfl] at hfile
      cases hfile
    · nofun
  · rename_i htext
    rw [files_eq_some]
    refine exists_congr fun l => and_congr_right fun hl => ?_
    have hne : ¬ s.filename l = s.filename k := by
      intro h
      rw [filename_inj.mp h] at hl
      exact htext hl
    rw [hnode, if_neg hne]

theorem Clear.writeObject (data : Bytes) (hclear : Clear s keys t) (hsep : Separate keys)
    (hk : k ∈ keys) : ∃ t', (s.writeObject k data).Returns t () t' ∧
      s.files t' = (s.files t).put k.text data ∧ Clear s keys t' ∧ SameElsewhere s t t' := by
  obtain ⟨hpass, hfree⟩ := hclear k hk
  obtain ⟨t', ht', hnode⟩ := writeObject_returns hpass hfree
  exact ⟨t', ht', files_put hpass hnode, hclear.write hsep hk hnode, .write hnode⟩

theorem pathExists_of_none (h : t.node (s.filename k) = none) :
    t.pathExists (s.filename k) = false := by
  rw [FileTree.pathExists_eq, h]
  rfl

theorem pathExists_of_file (h : t.node (s.filename k) = some (.file data)) :
    ¬ t.pathExists (s.filename k) = false := by
  rw [FileTree.pathExists_eq, h]
  nofun

theorem files_eq_none (h : t.node (s.filename k) = none) : s.files t k.text = none := by
  cases hf : s.files t k.text with
  | none => rfl
  | some data =>
    rw [files_text_eq_some, h] at hf
    cases hf

/-- The file is gone, whether it was there or not. -/
theorem Clear.rmObject (hclear : Clear s keys t) (hk : k ∈ keys) :
    ∃ t', (s.files t k.text = none ∧ (s.rmObject k).Raises t .fileNotFound t' ∨
        (∃ data, s.files t k.text = some data) ∧ (s.rmObject k).Returns t () t') ∧
      s.files t' = (s.files t).erase k.text ∧ Clear s keys t' ∧ SameElsewhere s t t' := by
  rcases hclear.node hk with hnone | ⟨data, hfile⟩
  · have hraises : (s.rmObject k).Raises t .fileNotFound t :=
      Proc.raises_bind.mpr (.inr ⟨t, t, rfl, Proc.raises_bind.mpr (.inl
        (Proc.raises_raiseIf.mpr ⟨pathExists_of_none hnone, rfl, rfl⟩))⟩)
    refine ⟨t, .inl ⟨files_eq_none hnone, hraises⟩, ?_, hclear,
      fun _ _ _ => rfl⟩
    funext text
    unfold Codec.Files.erase
    split
    · rename_i htext
      rw [htext, files_eq_none hnone]
    · rfl
  · obtain ⟨t', ht', hnode⟩ := FileTree.unlink_returns hfile
    have hreturns : (s.rmObject k).Returns t () t' :=
      Proc.returns_bind.mpr ⟨t, t, rfl, Proc.returns_bind.mpr ⟨(), t,
        Proc.returns_raiseIf.mpr ⟨pathExists_of_file hfile, rfl⟩, ht'⟩⟩
    refine ⟨t', .inr ⟨⟨data, files_text_eq_some.mpr hfile⟩, hreturns⟩, files_erase hnode, ?_, ?_⟩
    · intro l hl
      obtain ⟨hpass, hfree⟩ := hclear l hl
      constructor
      · intro q hq data'
        rw [hnode]
        split
        · nofun
        · exact hpass q hq data'
      · rw [hnode]
        split
        · rfl
        · exact hfree
    · intro q hbase hq
      have hne : ¬ q = s.filename k := by
        rintro rfl
        exact hbase (List.prefix_append _ _)
      rw [hnode, if_neg hne]

/-- What a call leaves when it was answered as the map says. -/
structure Answers (s : FileStorage) (keys : Set Key) (dirSize : ℕ) (c : Call) (t : Tree)
    (a : Answer) (t' : Tree) : Prop where
  performs : perform s dirSize c t = some (a, t')
  meets : Meets (s.files t) c a (s.files t')
  clear : Clear s keys t'
  elsewhere : SameElsewhere s t t'

theorem answers_write (hclear : Clear s keys t) (hsep : Separate keys) (hk : k ∈ keys) :
    ∃ a t', Answers s keys dirSize (.write k data) t a t' := by
  obtain ⟨t', ht', hfiles, hclear', hsame⟩ := hclear.writeObject data hsep hk
  exact ⟨.done, t', answered_of_returns ht', hfiles ▸ .write k data, hclear', hsame⟩

theorem answers_read (hclear : Clear s keys t) (hk : k ∈ keys) :
    ∃ a t', Answers s keys dirSize (.read k) t a t' := by
  rcases hclear.node hk with hnone | ⟨data, hfile⟩
  · have hraises : (s.readObject k).Raises t .fileNotFound t :=
      Proc.raises_bind.mpr (.inr ⟨t, t, rfl, Proc.raises_bind.mpr (.inl
        (Proc.raises_raiseIf.mpr ⟨pathExists_of_none hnone, rfl, rfl⟩))⟩)
    exact ⟨_, t, answered_of_raises hraises, .readMissing (files_eq_none hnone), hclear,
      fun _ _ _ => rfl⟩
  · have hreturns : (s.readObject k).Returns t data t :=
      Proc.returns_bind.mpr ⟨t, t, rfl, Proc.returns_bind.mpr ⟨(), t,
        Proc.returns_raiseIf.mpr ⟨pathExists_of_file hfile, rfl⟩,
        FileTree.openRead_returns hfile⟩⟩
    exact ⟨_, t, answered_of_returns hreturns, .read (files_text_eq_some.mpr hfile), hclear,
      fun _ _ _ => rfl⟩

theorem getsize_of_file {p : List Name} (h : t.node p = some (.file data)) :
    t.getsize (size dirSize) p = .ok data.length := by
  rw [FileTree.getsize, FileTree.stat_eq_ok.mpr h]
  rfl

theorem answers_readLength (hclear : Clear s keys t) (hk : k ∈ keys) :
    ∃ a t', Answers s keys dirSize (.readLength k) t a t' := by
  rcases hclear.node hk with hnone | ⟨data, hfile⟩
  · have hraises : (s.readObjectLength dirSize k).Raises t .fileNotFound t :=
      Proc.raises_bind.mpr (.inr ⟨t, t, rfl, Proc.raises_bind.mpr (.inl
        (Proc.raises_raiseIf.mpr ⟨pathExists_of_none hnone, rfl, rfl⟩))⟩)
    exact ⟨_, t, answered_of_raises hraises, .readLengthMissing (files_eq_none hnone), hclear,
      fun _ _ _ => rfl⟩
  · have hreturns : (s.readObjectLength dirSize k).Returns t data.length t := by
      refine Proc.returns_bind.mpr ⟨t, t, rfl, Proc.returns_bind.mpr ⟨(), t,
        Proc.returns_raiseIf.mpr ⟨pathExists_of_file hfile, rfl⟩, ?_⟩⟩
      rw [getsize_of_file hfile]
      rfl
    exact ⟨_, t, answered_of_returns hreturns, .readLength (files_text_eq_some.mpr hfile), hclear,
      fun _ _ _ => rfl⟩

theorem answers_rm (hclear : Clear s keys t) (hk : k ∈ keys) :
    ∃ a t', Answers s keys dirSize (.rm k) t a t' := by
  obtain ⟨t', hcases, hfiles, hclear', hsame⟩ := hclear.rmObject hk
  rcases hcases with ⟨hnone, hraises⟩ | ⟨⟨data, hdata⟩, hreturns⟩
  · refine ⟨_, t', answered_of_raises hraises, ?_, hclear', hsame⟩
    have hsame' : s.files t' = s.files t := by
      rw [hfiles]
      funext text
      unfold Codec.Files.erase
      split
      · rename_i htext
        rw [htext, hnone]
      · rfl
    rw [hsame']
    exact .rmMissing hnone
  · exact ⟨.done, t', answered_of_returns hreturns, hfiles ▸ .rm hdata, hclear', hsame⟩

theorem foldl_stats (objects : List (Text × ℕ)) (count size : ℕ) :
    objects.foldl (fun stats object => (stats.1 + 1, stats.2 + object.2)) (count, size) =
      (count + objects.length, size + (objects.map Prod.snd).sum) := by
  induction objects generalizing count size with
  | nil => rfl
  | cons object objects ih =>
    rw [List.foldl_cons, ih, List.length_cons, List.map_cons, List.sum_cons]
    congr 1 <;> omega

theorem listObjectsSizes_returns : (s.listObjectsSizes dirSize top).Returns t
    ((s.listed t top).map fun k => (k, ((s.files t k).map List.length).getD 0)) t := by
  refine Proc.returns_bind.mpr ⟨t, t, rfl, Proc.returns_pure.mpr ⟨?_, rfl⟩⟩
  rw [listed, List.map_map, ← List.filterMap_eq_map]
  apply List.filterMap_congr
  intro file hfile
  obtain ⟨k, data, rfl, -, hnode⟩ := mem_walkFiles.mp hfile
  dsimp only [Function.comp_apply]
  rw [getsize_of_file hnode, List.drop_left, files_text_eq_some.mpr hnode]
  rfl

theorem answers_stats (hclear : Clear s keys t) :
    ∃ a t', Answers s keys dirSize .stats t a t' := by
  have hreturns : (s.storageStats dirSize).Returns t ((s.listed t none).length,
      ((s.listed t none).map fun k => ((s.files t k).map List.length).getD 0).sum) t := by
    refine Proc.returns_bind.mpr ⟨_, t, listObjectsSizes_returns, Proc.returns_pure.mpr ⟨?_, rfl⟩⟩
    rw [foldl_stats, List.length_map, List.map_map, Nat.zero_add, Nat.zero_add]
    rfl
  have hall : Enumerates (s.files t) [] (s.listed t none) := enumerates_listed
  have hperform := answered_of_returns (f := fun st : ℕ × ℕ => .stats st.1 st.2) hreturns
  exact ⟨_, t, hperform, .stats hall, hclear,
      fun _ _ _ => rfl⟩

theorem answers_list (hclear : Clear s keys t) :
    ∃ a t', Answers s keys dirSize (.list top) t a t' := by
  have hreturns : (s.listObjects top).Returns t (s.listed t top) t :=
    Proc.returns_bind.mpr ⟨t, t, rfl, rfl⟩
  exact ⟨_, t, answered_of_returns hreturns, .list enumerates_listed, hclear,
      fun _ _ _ => rfl⟩

/-- Every call is answered as the map says. -/
theorem perform_answers (dirSize : ℕ) {c : Call} (hsep : Separate keys) (hclear : Clear s keys t)
    (hon : c.On keys) : ∃ a t', Answers s keys dirSize c t a t' := by
  cases c with
  | write k data => exact answers_write hclear hsep hon
  | read k => exact answers_read hclear hon
  | readLength k => exact answers_readLength hclear hon
  | rm k => exact answers_rm hclear hon
  | list top => exact answers_list hclear
  | stats => exact answers_stats hclear

theorem run_answers {calls : List Call} (hsep : Separate keys) (hclear : Clear s keys t)
    (hon : ∀ c ∈ calls, c.On keys) : ∃ answers t', run s dirSize calls t = some (answers, t') ∧
      MeetsAll (s.files t) calls answers (s.files t') ∧ SameElsewhere s t t' ∧
      Clear s keys t' := by
  induction calls generalizing t with
  | nil => exact ⟨[], t, rfl, .nil _, fun _ _ _ => rfl, hclear⟩
  | cons c calls ih =>
    obtain ⟨a, u, ha⟩ := perform_answers dirSize hsep hclear
      (hon c List.mem_cons_self)
    obtain ⟨answers, t', hrun, hmeets, hsame, hclear'⟩ :=
      ih ha.clear fun d hd => hon d (List.mem_cons_of_mem c hd)
    refine ⟨a :: answers, t', ?_, .cons ha.meets hmeets, ?_, hclear'⟩
    · simp only [run, ha.performs, hrun, Option.bind_eq_bind, Option.bind_some, Option.pure_def]
    · exact fun q hbase hq => (hsame q hbase hq).trans (ha.elsewhere q hbase hq)

/-- Whatever is called on the keys, from whatever tree with room for them, is answered as a map
from keys to bytes answers it; nothing outside of the directory is changed. -/
def Behaves (s : FileStorage) (dirSize : ℕ) (keys : Set Key) : Prop :=
  ∀ (calls : List Call) (t : Tree), (∀ c ∈ calls, c.On keys) → Clear s keys t →
    ∃ answers t', run s dirSize calls t = some (answers, t') ∧
      MeetsAll (s.files t) calls answers (s.files t') ∧ SameElsewhere s t t'

theorem clear_empty : Clear s keys FileTree.empty := by
  intro k hk
  constructor
  · intro q hq data
    by_cases hnil : q = []
    · rw [hnil]
      nofun
    · rw [FileTree.node_empty hnil]
      nofun
  · rw [FileTree.node_empty (filename_ne_nil s k)]
    rfl

theorem files_empty (text : Text) : s.files FileTree.empty text = none := by
  cases h : s.files FileTree.empty text with
  | none => rfl
  | some data =>
    obtain ⟨k, -, hnode⟩ := files_eq_some.mp h
    rw [FileTree.node_empty (filename_ne_nil s k)] at hnode
    cases hnode

/-- A key and one below it cannot both be there. -/
theorem not_behaves (hk : k ∈ keys) (hl : l ∈ keys) (hbelow : k.names <+: l.names)
    (hne : k ≠ l) : ¬ Behaves s dirSize keys := by
  intro h
  have hon : ∀ c ∈ [Call.write k [], Call.write l []], c.On keys := by
    intro c hc
    rcases List.mem_cons.mp hc with rfl | hc
    · exact hk
    · rw [List.mem_singleton.mp hc]
      exact hl
  obtain ⟨answers, t', -, hmeets, -⟩ := h _ FileTree.empty hon clear_empty
  generalize hfiles : s.files t' = files' at hmeets
  cases hmeets with
  | cons hfirst hrest =>
    cases hfirst
    cases hrest with
    | cons hsecond hnil =>
      cases hsecond
      cases hnil
      have htext : k.text ≠ l.text := fun htext => hne (text_inj.mp htext)
      have hfile : s.files t' k.text = some [] := by
        rw [hfiles, Codec.Files.put, if_neg htext, Codec.Files.put, if_pos rfl]
      have hdeeper : s.files t' l.text = some [] := by
        rw [hfiles, Codec.Files.put, if_pos rfl]
      obtain ⟨rest, hrest⟩ := hbelow
      have hrestne : rest ≠ [] := by
        rintro rfl
        rw [List.append_nil] at hrest
        cases k
        cases l
        cases hrest
        exact hne rfl
      have hnode := files_text_eq_some.mp hdeeper
      rw [filename, ← hrest, ← List.append_assoc] at hnode
      have hdir : t'.node (s.filename k) = some .dir := FileTree.isDir_above hrestne hnode
      rw [files_text_eq_some.mp hfile] at hdir
      cases hdir

/-- The keys that a file storage can hold side by side. -/
theorem calls_behave_iff (s : FileStorage) (dirSize : ℕ) (keys : Set Key) :
    Behaves s dirSize keys ↔ Separate keys := by
  constructor
  · intro h k hk l hl hbelow
    by_contra hne
    exact not_behaves hk hl hbelow hne h
  · intro hsep calls t hon hclear
    obtain ⟨answers, t', hrun, hmeets, hsame, -⟩ := run_answers hsep hclear hon
    exact ⟨answers, t', hrun, hmeets, hsame⟩

end FileStorage
end Benji
