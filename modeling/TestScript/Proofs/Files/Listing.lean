import Mathlib.Data.List.Sort
import Mathlib.Data.List.TakeWhile
import Mathlib.Data.String.Basic
import TestScript.Command.Run
import TestScript.Proofs.Files.Paths

/-!
# The scripts in a directory

A directory stands for the scripts right in it, in the order of their paths. Which files these
are is said by their paths alone (`IsListing`): a listing holds just the files that a name with
the right ending leads to, each of them once.
-/

namespace TestScript

/-! ## Proper trees -/

namespace FileTree

/-- Of the names of a place only that of the root has a slash in it. -/
def IsPlace (place : List String) : Prop :=
  ∀ name ∈ place, '/' ∈ name.toList → name = "/"

theorem IsPlace.follow {place : List String} {name : String} (h : IsPlace place)
    (hname : '/' ∉ name.toList) : IsPlace (follow place name) := by
  unfold FileTree.follow
  split
  · exact h
  · split
    · unfold parent
      split
      · simp [root, IsPlace]
      · split
        · exact List.forall_mem_cons.2 ⟨fun h => absurd h (by decide), h⟩
        · exact fun n hn => h n (List.dropLast_subset place hn)
    · exact List.forall_mem_append.2 ⟨h, by simpa using fun h => absurd h hname⟩

theorem IsPlace.foldl_follow {place names : List String} (h : IsPlace place)
    (hnames : ∀ name ∈ names, '/' ∉ name.toList) : IsPlace (names.foldl FileTree.follow place) := by
  induction names generalizing place with
  | nil => exact h
  | cons name names ih =>
    obtain ⟨hname, hnames⟩ := List.forall_mem_cons.1 hnames
    exact ih (h.follow hname) hnames

theorem not_mem_of_mem_split {cs : List Char} {name : String} (h : name ∈ Text.split '/' cs) :
    '/' ∉ name.toList := by
  obtain ⟨p, hp, rfl⟩ := List.mem_map.1 h
  rw [String.toList_ofList]
  exact Text.not_mem_of_mem_pieces hp

/-- A path starts at a place, and its steps are names without slashes. -/
theorem isPlace_steps (path : String) :
    IsPlace (steps path).1 ∧ ∀ name ∈ (steps path).2, '/' ∉ name.toList := by
  unfold steps
  split
  · exact ⟨by simp [root, IsPlace], fun _ => not_mem_of_mem_split⟩
  · exact ⟨fun _ h => by simp at h, fun _ => not_mem_of_mem_split⟩

/-- In a tree two things stand at one place only if both are directories. -/
structure IsProper (t : FileTree) : Prop where
  apart : t.entries.Pairwise fun a b => a.1 = b.1 → a.2 = .directory ∧ b.2 = .directory
  isPlace : ∀ e ∈ t.entries, IsPlace e.1

theorem entry?_ne_none_of_mem {t : FileTree} {e : List String × FileEntry} (h : e ∈ t.entries) :
    t.entry? e.1 ≠ none := by
  unfold entry?
  split
  · exact Option.some_ne_none _
  · intro hnone
    have := List.lookup_eq_none_iff.1 hnone e h
    simp at this

/-- **What is put into a proper tree leaves it proper.** -/
theorem IsProper.add {t : FileTree} (h : t.IsProper) (path : String) (e : FileEntry) :
    (t.add path e).IsProper := by
  obtain ⟨hstart, hnames⟩ := isPlace_steps path
  have hfollow : ∀ n, IsPlace (((steps path).2.take n).foldl FileTree.follow (steps path).1) :=
    fun n => hstart.foldl_follow fun name hname => hnames name (List.mem_of_mem_take hname)
  constructor
  · simp only [FileTree.add]
    refine List.pairwise_append.2 ⟨List.Pairwise.filter _ ?_, List.pairwise_singleton _ _, ?_⟩
    · refine List.pairwise_append.2 ⟨h.apart, ?_, ?_⟩
      · refine List.pairwise_map.2 (List.pairwise_of_forall fun _ _ _ => ⟨rfl, rfl⟩)
      · -- A directory is only put where nothing stands.
        intro a ha b hb hab
        obtain ⟨p, hp, rfl⟩ := List.mem_map.1 hb
        have hnone := (List.mem_filter.1 hp).2
        simp only at hab
        rw [← hab, Option.isNone_iff_eq_none] at hnone
        exact absurd hnone (entry?_ne_none_of_mem ha)
    · intro a ha b hb hab
      obtain rfl := List.mem_singleton.1 hb
      simp [hab] at ha
  · simp only [FileTree.add]
    refine List.forall_mem_append.2 ⟨fun a ha => ?_, fun a ha => ?_⟩
    · rcases List.mem_append.1 (List.mem_filter.1 ha).1 with ha | ha
      · exact h.isPlace a ha
      · obtain ⟨p, hp, rfl⟩ := List.mem_map.1 ha
        obtain ⟨n, -, rfl⟩ := List.mem_map.1 (List.mem_filter.1 hp).1
        exact hfollow n
    · obtain rfl := List.mem_singleton.1 ha
      exact hstart.foldl_follow hnames

/-! ## Files in a directory -/

variable {t : FileTree} {dir : String} {place : List String}

/-- A name is that of a script. -/
def IsScriptName (name : String) : Prop :=
  ∃ stem, stem ≠ "" ∧ (name = stem ++ ".yaml" ∨ name = stem ++ ".yml")

end FileTree

namespace FileTree

/-- The scripts in a directory, in the order of their paths: the files that a name of a script
leads to from there, each once. -/
structure IsListing (t : FileTree) (dir : String) (found : List String) : Prop where
  sorted : found.Pairwise (· < ·)
  mem_iff : ∀ f, f ∈ found ↔ ∃ name, '/' ∉ name.toList ∧ IsScriptName name ∧
    f = joinPath dir name ∧ t.isFile f = true

variable {t : FileTree} {dir : String}

theorem IsListing.unique {found found' : List String} (h : IsListing t dir found)
    (h' : IsListing t dir found') : found = found' :=
  h.sorted.eq_of_mem_iff h'.sorted fun f => (h.mem_iff f).trans (h'.mem_iff f).symm

/-- The files that some paths stand for: a directory for the scripts in it, and any other path for
itself. -/
inductive Expands (t : FileTree) : List String → List String → Prop
  | nil : Expands t [] []
  | path {path : String} {paths found : List String} (h : t.isDirectory path = false)
      (hfound : Expands t paths found) : Expands t (path :: paths) (path :: found)
  | directory {dir : String} {paths listing found : List String} (h : t.isDirectory dir = true)
      (hlisting : IsListing t dir listing) (hfound : Expands t paths found) :
      Expands t (dir :: paths) (listing ++ found)

theorem Expands.unique {paths found found' : List String} (h : Expands t paths found)
    (h' : Expands t paths found') : found = found' := by
  induction h generalizing found' with
  | nil =>
    cases h'
    rfl
  | path hpath _ ih =>
    cases h' with
    | path _ hfound => rw [ih hfound]
    | directory hdir => simp [hpath] at hdir
  | directory hdir hlisting _ ih =>
    cases h' with
    | path hpath => simp [hdir] at hpath
    | directory _ hlisting' hfound => rw [ih hfound, hlisting.unique hlisting']

end FileTree
end TestScript
