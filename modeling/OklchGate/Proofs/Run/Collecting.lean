import Mathlib.Data.List.Forall2
import Mathlib.Data.List.Induction
import OklchGate.Proofs.Files.Listing
import OklchGate.Proofs.Files.Path
import OklchGate.Run.Convert

/-!
# The files that paths stand for

The files of a run come from the paths that are listed: a directory stands for
the files of known kinds below it, and anything else for itself.  A file that
several paths stand for comes once, where the first of them has it.

There are four groups.

* `StandsFor` and `Overlong`: what a path stands for, and what keeps it from
  being expanded.
* `expand_cases`, one path.
* `Adds`: what is added to the files that are kept, and `exists_adds`, by
  induction on what comes next.
* `Collects`, the files for some paths: `Collects.concat` for one more path, and
  from it `collectFiles_cases` for all; `collectFiles_collects` for paths that
  were read from texts.
-/

namespace OklchGate

/-! ## What a path stands for -/

/-- The root of a path, if there is one, and its names.  Paths are ordered by
them. -/
def Path.parts (path : Path) : List Text :=
  if path.root.isEmpty then path.names else path.root :: path.names

/-- What a path stands for: itself, whatever it is, unless it leads to a
directory; otherwise the files of known kinds below the directory, at any
depth. -/
inductive StandsFor (tree : FileTree) (config : Config) (path : Path) :
    Path → Prop where
  | listed (h : tree.leadsToDirectory path = false) :
    StandsFor tree config path path
  | below {names rest : List Text} (hpath : tree.resolve path = .ok names)
      (hrest : rest ≠ []) (hfile : (tree.find? (names ++ rest)).isSome = true)
      (hkind : (config.kindOf? (path.below rest)).isSome = true) :
      StandsFor tree config path (path.below rest)

/-- What keeps a path from being expanded: it is too long itself, or has a name
that is; or it leads to a directory with something below it whose path is too
long. -/
inductive Overlong (tree : FileTree) (path : Path) : Path → Prop where
  | listed (h : tree.resolve path = .error .nameTooLong) :
    Overlong tree path path
  | below {names rest : List Text} (hpath : tree.resolve path = .ok names)
      (hrest : rest ≠ []) (hentry : tree.IsEntry (names ++ rest))
      (hlong : exceeds pathLimit (path.below rest).toText = true) :
      Overlong tree path (path.below rest)

/-- All that a path stands for, in the order of paths. -/
structure Expands (tree : FileTree) (config : Config) (path : Path)
    (files : List Path) : Prop where
  mem_iff : ∀ file, file ∈ files ↔ StandsFor tree config path file
  ordered : files.Pairwise fun a b => a.toText ≠ b.toText → a.parts < b.parts

theorem Path.parts_below_lt {path : Path} {a b : List Text} (h : a < b) :
    (path.below a).parts < (path.below b).parts := by
  have hnames : path.names ++ a < path.names ++ b := List.append_left_lt h
  rw [parts, parts]
  show (if path.root.isEmpty then path.names ++ a
    else path.root :: (path.names ++ a)) <
    if path.root.isEmpty then path.names ++ b
    else path.root :: (path.names ++ b)
  split
  · exact hnames
  · exact List.cons_lt_cons_self.mpr hnames

/-! ## One path -/

section Expanding

variable {tree : FileTree} {config : Config} {path : Path} {names : List Text}

theorem FileTree.not_exceeds_of_resolve (h : tree.resolve path = .ok names) :
    exceeds pathLimit path.toText = false := by
  rw [resolve] at h
  split at h
  · cases h
  · split at h
    · cases h
    · next hlimit => exact Bool.eq_false_iff.mpr hlimit

/-- A path that does not lead to a directory stands for itself alone. -/
theorem expands_self (hdirectory : tree.leadsToDirectory path = false) :
    Expands tree config path [path] where
  mem_iff := by
    intro file
    rw [List.mem_singleton]
    constructor
    · rintro rfl
      exact .listed hdirectory
    · rintro (_ | ⟨hpath, hrest, hfile, -⟩)
      · rfl
      · rw [FileTree.leadsToDirectory, hpath] at hdirectory
        have habove := FileTree.isDirectory_of_isEntry hrest (Or.inl hfile)
        exact absurd (hdirectory.symm.trans habove) Bool.false_ne_true
  ordered := List.pairwise_singleton _ _

/-- A directory stands for the files of known kinds that are listed. -/
theorem expands_directory (hpath : tree.resolve path = .ok names)
    (hdirectory : tree.isDirectory names = true) :
    Expands tree config path
      (((FileTree.sortNames (tree.filesBelow names)).map path.below).filter
        fun file =>
        (config.kindOf? file).isSome) where
  mem_iff := by
    intro file
    rw [List.mem_filter, List.mem_map]
    constructor
    · rintro ⟨⟨rest, hrest, rfl⟩, hkind⟩
      obtain ⟨hne, hfile⟩ :=
        FileTree.mem_filesBelow_iff.mp (FileTree.mem_sortNames.mp hrest)
      exact .below hpath hne hfile hkind
    · rintro (hother | ⟨hother, hrest, hfile, hkind⟩)
      · rw [FileTree.leadsToDirectory, hpath] at hother
        exact absurd (hother.symm.trans hdirectory) Bool.false_ne_true
      · obtain rfl := Except.ok.inj (hpath.symm.trans hother)
        have hmem := FileTree.mem_filesBelow_iff.mpr ⟨hrest, hfile⟩
        exact ⟨⟨_, FileTree.mem_sortNames.mpr hmem, rfl⟩, hkind⟩
  ordered := by
    refine List.Pairwise.filter _ (List.pairwise_map.mpr ?_)
    refine (FileTree.pairwise_sortNames _).imp fun {a b} hle htext =>
      Path.parts_below_lt ?_
    exact @Std.lt_of_le_of_ne (List Text) List.instLE List.instLT _ _ _ _ hle
      fun heq => htext (by rw [heq])

/-- If a path leads somewhere, only something that lies below can be too
long. -/
theorem Overlong.exists_below {entry : Path}
    (hpath : tree.resolve path = .ok names) (h : Overlong tree path entry) :
    ∃ rest, rest ≠ [] ∧ tree.IsEntry (names ++ rest) ∧
      exceeds pathLimit (path.below rest).toText = true := by
  rcases h with hother | ⟨hother, hrest, hentry, hlong⟩
  · cases hpath.symm.trans hother
  · obtain rfl := Except.ok.inj (hpath.symm.trans hother)
    exact ⟨_, hrest, hentry, hlong⟩

/-- A path is expanded to all that it stands for, or something too long keeps it
from that. -/
theorem expand_cases (tree : FileTree) (config : Config) (path : Path) :
    (∃ files, expand tree config path = .ok files ∧
      Expands tree config path files ∧ ∀ entry, ¬ Overlong tree path entry) ∨
      ∃ entry, Overlong tree path entry ∧
        expand tree config path = .error ⟨.nameTooLong, entry⟩ := by
  unfold expand
  cases hresolve : tree.resolve path with
  | error cause =>
    have hdirectory : tree.leadsToDirectory path = false := by
      rw [FileTree.leadsToDirectory, hresolve]
    by_cases hlong : cause = .nameTooLong
    · subst hlong
      exact Or.inr ⟨path, .listed hresolve, rfl⟩
    · left
      refine ⟨[path], by cases cause <;> first | rfl | exact absurd rfl hlong,
        expands_self hdirectory, ?_⟩
      rintro entry (hother | ⟨hother, -, -, -⟩)
      · exact hlong (Except.error.inj (hresolve.symm.trans hother))
      · cases hresolve.symm.trans hother
  | ok names =>
    dsimp only
    by_cases hdirectory : tree.isDirectory names = true
    · rw [if_pos hdirectory]
      cases hlisting : tree.overlong? path names with
      | some entry =>
        obtain ⟨rest, hrest, hentry, rfl, hlong⟩ :=
          FileTree.overlong?_eq_some (FileTree.not_exceeds_of_resolve hresolve)
            hlisting
        exact Or.inr ⟨_, .below hresolve hrest hentry hlong, rfl⟩
      | none =>
        refine Or.inl ⟨_, rfl, expands_directory hresolve hdirectory,
          fun entry hentry => ?_⟩
        obtain ⟨rest, hrest, hthere, hlong⟩ := hentry.exists_below hresolve
        rw [FileTree.overlong?_eq_none hlisting hrest hthere] at hlong
        cases hlong
    · rw [if_neg hdirectory]
      refine Or.inl ⟨_, rfl, expands_self ?_, fun entry hentry => ?_⟩
      · rw [FileTree.leadsToDirectory, hresolve]
        exact Bool.eq_false_iff.mpr hdirectory
      · obtain ⟨rest, hrest, hthere, -⟩ := hentry.exists_below hresolve
        exact hdirectory (FileTree.isDirectory_of_isEntry hrest hthere)

/-- Only what is listed can be too long; what is on the way to it is shorter. -/
theorem not_overlong_of_entries (hpath : tree.resolve path = .ok names)
    (hshort : ∀ rest ∈ tree.entriesBelow names,
      exceeds pathLimit (path.below rest).toText = false) (entry : Path) :
    ¬ Overlong tree path entry := by
  intro h
  obtain ⟨rest, hrest, hthere, hlong⟩ := h.exists_below hpath
  obtain ⟨more, hmore, hprefix⟩ := (FileTree.isEntry_append_iff hrest).mp hthere
  have hnames := (List.prefix_append_right_inj path.names).mpr hprefix
  have hfits : exceeds pathLimit (path.below rest).toText = false := by
    refine Path.not_exceeds_of_prefix ?_ ?_ (hshort more hmore)
    · rfl
    · exact hnames
  exact absurd (hfits.symm.trans hlong) Bool.false_ne_true

end Expanding

/-! ## Each file once -/

/-- A path is kept unless one with the same text is. -/
theorem withoutRepeats_concat_cases (paths : List Path) (path : Path) :
    (∃ kept ∈ withoutRepeats paths, kept.toText = path.toText) ∧
        withoutRepeats (paths ++ [path]) = withoutRepeats paths ∨
      (∀ kept ∈ withoutRepeats paths, kept.toText ≠ path.toText) ∧
        withoutRepeats (paths ++ [path]) = withoutRepeats paths ++ [path] := by
  unfold withoutRepeats
  rw [List.foldl_append, List.foldl_cons, List.foldl_nil]
  split
  · next hany =>
    obtain ⟨kept, hkept, htext⟩ := List.any_eq_true.mp hany
    exact Or.inl ⟨⟨kept, List.mem_reverse.mpr hkept, of_decide_eq_true htext⟩,
      rfl⟩
  · next hany =>
    refine Or.inr ⟨fun kept hkept htext => hany ?_, List.reverse_cons⟩
    exact List.any_eq_true.mpr ⟨kept, List.mem_reverse.mp hkept,
      decide_eq_true htext⟩

/-- What comes next of some paths after the ones that are kept: those with new
texts. -/
structure Adds (kept next new : List Path) : Prop where
  sublist : new.Sublist next
  distinct : new.Pairwise fun a b => a.toText ≠ b.toText
  fresh : ∀ path ∈ new, ∀ other ∈ kept, other.toText ≠ path.toText
  covers : ∀ path ∈ next, ∃ other ∈ kept ++ new, other.toText = path.toText

theorem exists_adds (paths next : List Path) :
    ∃ new, withoutRepeats (paths ++ next) = withoutRepeats paths ++ new ∧
      Adds (withoutRepeats paths) next new := by
  induction next using List.reverseRecOn with
  | nil =>
    rw [List.append_nil]
    exact ⟨[], (List.append_nil _).symm, List.nil_sublist _, List.Pairwise.nil,
      nofun, nofun⟩
  | append_singleton next path ih =>
    obtain ⟨new, hnew, hadds⟩ := ih
    rw [← List.append_assoc]
    rcases withoutRepeats_concat_cases (paths ++ next) path with
      ⟨hthere, hsame⟩ | ⟨hfresh, hmore⟩
    · refine ⟨new, hsame.trans hnew,
        hadds.sublist.trans (List.sublist_append_left next [path]),
        hadds.distinct, hadds.fresh, ?_⟩
      rw [hnew] at hthere
      exact List.forall_mem_append.mpr
        ⟨hadds.covers, List.forall_mem_singleton.mpr hthere⟩
    · rw [hnew] at hfresh hmore
      obtain ⟨holdFresh, hnewFresh⟩ := List.forall_mem_append.mp hfresh
      refine ⟨new ++ [path], by rw [hmore, List.append_assoc],
        hadds.sublist.append (List.Sublist.refl [path]), ?_, ?_, ?_⟩
      · refine List.pairwise_append.mpr ⟨hadds.distinct,
          List.pairwise_singleton _ _, ?_⟩
        exact fun a ha b hb => (List.mem_singleton.mp hb) ▸ hnewFresh a ha
      · exact List.forall_mem_append.mpr
          ⟨hadds.fresh, List.forall_mem_singleton.mpr holdFresh⟩
      · refine List.forall_mem_append.mpr ⟨fun other hother => ?_,
          List.forall_mem_singleton.mpr ⟨path, by simp, rfl⟩⟩
        obtain ⟨kept, hkept, htext⟩ := hadds.covers other hother
        rw [← List.append_assoc]
        exact ⟨kept, List.mem_append_left _ hkept, htext⟩

/-! ## All paths -/

section Collecting

variable {tree : FileTree} {config : Config} {path : Path}
  {done paths files : List Path}
variable {text : Text} {index : Nat}

/-- A path stands for a file with this text. -/
def Yields (tree : FileTree) (config : Config) (path : Path) (text : Text) :
    Prop :=
  ∃ file, StandsFor tree config path file ∧ file.toText = text

/-- The first of some paths that stands for a file with this text. -/
structure FirstFor (tree : FileTree) (config : Config) (paths : List Path)
    (index : Nat) (text : Text) : Prop where
  here : ∃ path, paths[index]? = some path ∧ Yields tree config path text
  first : ∀ earlier ∈ paths.take index, ¬ Yields tree config earlier text

/-- The files that some paths stand for.  No two have the same text, and no text
of a file is missing.  They come in the order of the first paths that stand for
them, and those of one path in the order of paths. -/
structure Collects (tree : FileTree) (config : Config)
    (paths files : List Path) :
    Prop where
  distinct : files.Pairwise fun a b => a.toText ≠ b.toText
  sound : ∀ file ∈ files, ∃ path ∈ paths, StandsFor tree config path file
  complete : ∀ path ∈ paths, ∀ file, StandsFor tree config path file →
    ∃ kept ∈ files, kept.toText = file.toText
  ordered : files.Pairwise fun a b => ∃ i j,
    FirstFor tree config paths i a.toText ∧
    FirstFor tree config paths j b.toText ∧ (i < j ∨ i = j ∧ a.parts < b.parts)

theorem exists_firstFor (h : ∃ path ∈ paths, Yields tree config path text) :
    ∃ index, FirstFor tree config paths index text := by
  induction paths with
  | nil => simp at h
  | cons path rest ih =>
    by_cases hyields : Yields tree config path text
    · exact ⟨0, ⟨path, rfl, hyields⟩, nofun⟩
    · obtain ⟨other, hother, htext⟩ := h
      rcases List.mem_cons.mp hother with rfl | hother
      · exact absurd htext hyields
      · obtain ⟨index, hhere, hfirst⟩ := ih ⟨other, hother, htext⟩
        refine ⟨index + 1, hhere, ?_⟩
        rw [List.take_succ_cons]
        exact List.forall_mem_cons.mpr ⟨hyields, hfirst⟩

theorem FirstFor.lt_length (h : FirstFor tree config paths index text) :
    index < paths.length := by
  obtain ⟨path, hpath, -⟩ := h.here
  exact (List.getElem?_eq_some_iff.mp hpath).1

/-- Which path is the first does not depend on the paths that follow. -/
theorem FirstFor.append (h : FirstFor tree config paths index text)
    (next : List Path) :
    FirstFor tree config (paths ++ next) index text where
  here := by
    rw [List.getElem?_append_left h.lt_length]
    exact h.here
  first := by
    rw [List.take_append_of_le_length (Nat.le_of_lt h.lt_length)]
    exact h.first

theorem FirstFor.concat
    (hnot : ∀ earlier ∈ paths, ¬ Yields tree config earlier text)
    (h : Yields tree config path text) :
    FirstFor tree config (paths ++ [path]) paths.length text where
  here := ⟨path, by simp, h⟩
  first := by rwa [List.take_left]

theorem Collects.nil (tree : FileTree) (config : Config) :
    Collects tree config [] [] where
  distinct := List.Pairwise.nil
  sound := nofun
  complete := nofun
  ordered := List.Pairwise.nil

/-- One more path. -/
theorem Collects.concat {kept next new : List Path}
    (h : Collects tree config done kept)
    (hexpands : Expands tree config path next) (hadds : Adds kept next new) :
    Collects tree config (done ++ [path]) (kept ++ new) := by
  have hnew : ∀ file ∈ new, StandsFor tree config path file := fun file hfile =>
    (hexpands.mem_iff file).mp (hadds.sublist.subset hfile)
  -- A text that is new comes from none of the paths before.
  have hlast : ∀ file ∈ new,
      FirstFor tree config (done ++ [path]) done.length file.toText := by
    intro file hfile
    refine .concat ?_ ⟨file, hnew file hfile, rfl⟩
    rintro earlier hearlier ⟨other, hother, htext⟩
    obtain ⟨before, hbefore, hsame⟩ := h.complete earlier hearlier other hother
    exact hadds.fresh file hfile before hbefore (hsame.trans htext)
  refine ⟨?_, ?_, ?_, ?_⟩
  · refine List.pairwise_append.mpr ⟨h.distinct, hadds.distinct,
      fun a ha b hb => ?_⟩
    exact hadds.fresh b hb a ha
  · refine List.forall_mem_append.mpr ⟨fun file hfile => ?_,
      fun file hfile => ?_⟩
    · obtain ⟨earlier, hearlier, hstands⟩ := h.sound file hfile
      exact ⟨earlier, List.mem_append_left _ hearlier, hstands⟩
    · exact ⟨path, by simp, hnew file hfile⟩
  · refine List.forall_mem_append.mpr ⟨fun earlier hearlier file hfile => ?_,
      List.forall_mem_singleton.mpr fun file hfile => ?_⟩
    · obtain ⟨before, hbefore, htext⟩ := h.complete earlier hearlier file hfile
      exact ⟨before, List.mem_append_left new hbefore, htext⟩
    · exact hadds.covers file ((hexpands.mem_iff file).mpr hfile)
  · refine List.pairwise_append.mpr ⟨?_, ?_, fun a ha b hb => ?_⟩
    · refine h.ordered.imp fun {a b} hab => ?_
      obtain ⟨i, j, hi, hj, horder⟩ := hab
      exact ⟨i, j, hi.append [path], hj.append [path], horder⟩
    · refine ((hexpands.ordered.sublist hadds.sublist).and
        hadds.distinct).imp_of_mem fun {a b} ha hb hab => ?_
      exact ⟨_, _, hlast a ha, hlast b hb, Or.inr ⟨rfl, hab.1 hab.2⟩⟩
    · obtain ⟨earlier, hearlier, hstands⟩ := h.sound a ha
      obtain ⟨i, hi⟩ := exists_firstFor ⟨earlier, hearlier, a, hstands, rfl⟩
      exact ⟨i, done.length, hi.append [path], hlast b hb, Or.inl hi.lt_length⟩

/-- Further paths. -/
theorem Collects.append {next : List Path} {lists : List (List Path)}
    (h : Collects tree config done (withoutRepeats files))
    (hexpands : List.Forall₂ (Expands tree config) next lists) :
    Collects tree config (done ++ next)
      (withoutRepeats (files ++ lists.flatten)) := by
  induction hexpands generalizing done files with
  | nil => simpa using h
  | cons hfirst _ ih =>
    obtain ⟨new, hnew, hadds⟩ := exists_adds files _
    have hstep := h.concat hfirst hadds
    rw [← hnew] at hstep
    have hall := ih hstep
    rwa [List.append_assoc, List.append_assoc, List.singleton_append,
      ← List.flatten_cons] at hall

/-- Every path is expanded, or something too long keeps one of them from
that. -/
theorem mapM_expand_cases (tree : FileTree) (config : Config)
    (paths : List Path) :
    (∃ lists, paths.mapM (expand tree config) = .ok lists ∧
        List.Forall₂ (Expands tree config) paths lists ∧
        ∀ path ∈ paths, ∀ entry, ¬ Overlong tree path entry) ∨
      ∃ path ∈ paths, ∃ entry, Overlong tree path entry ∧
        paths.mapM (expand tree config) = .error ⟨.nameTooLong, entry⟩ := by
  induction paths with
  | nil => exact Or.inl ⟨[], rfl, .nil, nofun⟩
  | cons path rest ih =>
    rw [List.mapM_cons]
    rcases expand_cases tree config path with
      ⟨files, hexpand, hexpands, hshort⟩ | ⟨entry, hlong, hexpand⟩
    · rcases ih with
        ⟨lists, hmap, hlists, hrest⟩ | ⟨other, hother, entry, hlong, hmap⟩
      · rw [hexpand, hmap]
        exact Or.inl ⟨files :: lists, rfl, .cons hexpands hlists,
          List.forall_mem_cons.mpr ⟨hshort, hrest⟩⟩
      · rw [hexpand, hmap]
        exact Or.inr ⟨other, List.mem_cons_of_mem path hother, entry,
          hlong, rfl⟩
    · rw [hexpand]
      exact Or.inr ⟨path, List.mem_cons_self, entry, hlong, rfl⟩

/-- The files that some paths stand for are collected, unless a path is too
long, of something that is listed or of something below a directory that is
listed: then this error stops the run. -/
theorem collectFiles_cases (tree : FileTree) (config : Config)
    (paths : List Path) :
    (∃ files, collectFiles tree config paths = .ok files ∧
      Collects tree config paths files ∧
        ∀ path ∈ paths, ∀ entry, ¬ Overlong tree path entry) ∨
      ∃ path ∈ paths, ∃ entry, Overlong tree path entry ∧
        collectFiles tree config paths = .error ⟨.nameTooLong, entry⟩ := by
  unfold collectFiles
  rcases mapM_expand_cases tree config paths with
    ⟨lists, hmap, hlists, hshort⟩ | ⟨path, hpath, entry, hlong, hmap⟩
  · have hnone : Collects tree config [] (withoutRepeats []) := .nil tree config
    rw [hmap]
    exact Or.inl ⟨_, rfl, hnone.append hlists, hshort⟩
  · rw [hmap]
    exact Or.inr ⟨path, hpath, entry, hlong, rfl⟩

/-! ## Paths that were read -/

/-- No name of a file is empty or a dot, or holds a slash or a null
character. -/
def FileTree.Named (tree : FileTree) : Prop :=
  ∀ file ∈ tree.files, ∀ name ∈ file.1, name ≠ [] ∧ name ≠ ['.'] ∧ '/' ∉ name ∧
    '\x00' ∉ name

theorem StandsFor.plain {file : Path} (hnamed : tree.Named) (hpath : path.Plain)
    (h : StandsFor tree config path file) : file.Plain := by
  rcases h with _ | ⟨-, -, hfile, -⟩
  · exact hpath
  · obtain ⟨stored, hstored, hnames⟩ := (FileTree.isSome_find?_iff _ _).mp hfile
    refine ⟨hpath.root,
      List.forall_mem_append.mpr ⟨hpath.names, fun name hname => ?_⟩⟩
    have hmem : name ∈ stored.1 := hnames ▸ List.mem_append_right _ hname
    obtain ⟨hne, hdot, hslash, -⟩ := hnamed stored hstored name hmem
    exact ⟨hne, hdot, hslash⟩

/-- Where different paths have different texts, the files are just those that
are stood for. -/
theorem Collects.mem_iff (hnamed : tree.Named)
    (hplain : ∀ path ∈ paths, path.Plain) (h : Collects tree config paths files)
    (file : Path) :
    file ∈ files ↔ ∃ path ∈ paths, StandsFor tree config path file := by
  refine ⟨h.sound file, ?_⟩
  rintro ⟨path, hpath, hstands⟩
  obtain ⟨kept, hkept, htext⟩ := h.complete path hpath file hstands
  obtain ⟨other, hother, hkeptStands⟩ := h.sound kept hkept
  have heq := (hkeptStands.plain hnamed (hplain other hother)).eq_of_toText
    (hstands.plain hnamed (hplain path hpath)) htext
  rwa [← heq]

/-- The files that the paths of some texts stand for are collected, each once,
wherever in the tree a path leads.  They are not if a path is too long, of
something that is listed or that lies below a listed directory: then this error
stops the run. -/
theorem collectFiles_collects (tree : FileTree) (config : Config)
    (texts : List Text) :
    (∃ files, collectFiles tree config (texts.map Path.ofText) = .ok files ∧
        Collects tree config (texts.map Path.ofText) files ∧
        (tree.Named → ∀ file, file ∈ files ↔
          ∃ path ∈ texts.map Path.ofText, StandsFor tree config path file) ∧
        ∀ path ∈ texts.map Path.ofText, ∀ entry, ¬ Overlong tree path entry) ∨
      ∃ path ∈ texts.map Path.ofText, ∃ entry, Overlong tree path entry ∧
        collectFiles tree config (texts.map Path.ofText) = .error
          ⟨.nameTooLong, entry⟩ := by
  rcases collectFiles_cases tree config (texts.map Path.ofText) with
    ⟨files, hfiles, hcollects, hshort⟩ | hlong
  · exact Or.inl ⟨files, hfiles, hcollects,
      fun hnamed => hcollects.mem_iff hnamed Path.plain_of_mem_map, hshort⟩
  · exact Or.inr hlong

/-- The directory around the working directory and the working directory itself
are listed, the one by two dots and the other from the root. -/
example :
    (collectFiles
        { files :=
            [(["a".toList, "z.css".toList], []),
              (["a".toList, "c.txt".toList], []),
              (["a".toList, "b".toList, "x.ts".toList], [])]
          working := ["a".toList, "b".toList] }
        {} (["..".toList, "/a/b".toList].map Path.ofText)).toOption =
      some (["../b/x.ts".toList, "../z.css".toList, "/a/b/x.ts".toList].map
        Path.ofText) := by
  cbv

/-- No file can have a name of 260 characters, and such a path is not a
directory.  Nothing is collected for it. -/
theorem collectFiles_long_name :
    ({} : FileTree).leadsToDirectory
        (Path.ofText (List.replicate 256 'a' ++ ".css".toList)) = false ∧
      ¬ ∃ files, collectFiles {} {}
        [Path.ofText (List.replicate 256 'a' ++ ".css".toList)] =
        .ok files := by
  have hstops : (collectFiles {} {}
      [Path.ofText (List.replicate 256 'a' ++ ".css".toList)]).isOk =
        false := by
    decide +kernel
  refine ⟨by decide +kernel, ?_⟩
  rintro ⟨files, hfiles⟩
  rw [hfiles] at hstops
  cases hstops

end Collecting

end OklchGate
