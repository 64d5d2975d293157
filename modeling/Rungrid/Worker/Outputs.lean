-- SUMMARY: The output directory of a command: what `rglob` finds in it, and that its regular files are collected once each.
import Mathlib.Data.List.Infix
import Mathlib.Data.List.Lex
import Mathlib.Data.List.Sort
import Rungrid.Worker.Artifacts

/-!
# The output directory

`sorted(outputs.rglob("*"))` in `execute` lists everything below the output directory.
Links to directories are listed and not followed. Of what is listed, `execute` keeps what
`is_file` and not `is_symlink`.

`IsFile` says what a regular file of a directory is, without looking at how the files are
found.
-/

namespace Rungrid

namespace Worker

open Dumps (Str)

/-! ## Directories -/

abbrev FileName : Type := { name : Str // IsName name }

/-- What a directory has under a name. Of a link it is known whether `is_file` holds of its
target. `special` are pipes, sockets and devices. -/
inductive Node where
  | file (content : List UInt8)
  | dir (entries : List (FileName × Node))
  | symlink (toFile : Bool)
  | special

abbrev Directory : Type := List (FileName × Node)

/-- A regular file below a directory, with its path. -/
inductive IsFile : Directory → List FileName → List UInt8 → Prop where
  | here {d : Directory} {name : FileName} {content : List UInt8} :
      (name, .file content) ∈ d → IsFile d [name] content
  | inside {d sub : Directory} {name : FileName} {path : List FileName} {content : List UInt8} :
      (name, .dir sub) ∈ d → IsFile sub path content → IsFile d (name :: path) content

mutual

/-- No directory has a name twice. -/
def Node.Distinct : Node → Prop
  | .dir entries => Distinct entries
  | _ => True

def Distinct : List (FileName × Node) → Prop
  | [] => True
  | (name, node) :: rest => name ∉ rest.map Prod.fst ∧ node.Distinct ∧ Distinct rest

end

/-! ## Collecting the files -/

/-- A path that is listed: the names of the directories, its own name, and what it is. -/
structure Listed where
  dir : List FileName
  name : FileName
  node : Node

def Listed.path (x : Listed) : List FileName := x.dir ++ [x.name]

mutual

/-- `rglob("*")` of what has the path `dir`. -/
def Node.rglob (dir : List FileName) : Node → List Listed
  | .dir entries => rglob dir entries
  | _ => []

def rglob (dir : List FileName) : List (FileName × Node) → List Listed
  | [] => []
  | (name, node) :: rest => ⟨dir, name, node⟩ :: (node.rglob (dir ++ [name]) ++ rglob dir rest)

end

/-- Paths are compared by their parts, and these by their code points. -/
def Listed.key (x : Listed) : List (List Nat) := x.path.map (fun name => name.1.map Dumps.CodePoint.val)

/-- `sorted`. -/
def sorted (xs : List Listed) : List Listed := xs.insertionSort (fun x y => x.key ≤ y.key)

/-- `path.is_file()`, which follows links. -/
def Node.isFile : Node → Bool
  | .file _ => true
  | .symlink toFile => toFile
  | _ => false

/-- `path.is_symlink()`. -/
def Node.isSymlink : Node → Bool
  | .symlink _ => true
  | _ => false

/-- The bytes of a regular file. -/
def Node.bytes : Node → List UInt8
  | .file content => content
  | _ => []

/-- The file with a name. -/
def File.of (name : FileName) (content : List UInt8) : File := ⟨name.1, content, name.2⟩

/-- The paths `execute` uploads as outputs, with the files. -/
def outputFiles (outputs : Directory) : List (List FileName × File) :=
  ((sorted (rglob [] outputs)).filter (fun x => x.node.isFile && !x.node.isSymlink)).map
    (fun x => (x.path, .of x.name x.node.bytes))

/-! ## What is listed -/

section Listing

variable {d : Directory} {dir : List FileName} {name : FileName} {node : Node} {x : Listed}

theorem mem_rglob_of_mem (h : (name, node) ∈ d) (dir : List FileName) : ⟨dir, name, node⟩ ∈ rglob dir d := by
  induction d with
  | nil => cases h
  | cons e d ih =>
      obtain ⟨name', node'⟩ := e
      rw [rglob]
      rcases List.mem_cons.mp h with heq | h
      · cases heq
        exact List.mem_cons_self
      · exact List.mem_cons_of_mem _ (List.mem_append_right _ (ih h))

theorem mem_rglob_of_dir {sub : Directory} (h : (name, .dir sub) ∈ d) (hx : x ∈ rglob (dir ++ [name]) sub) :
    x ∈ rglob dir d := by
  induction d with
  | nil => cases h
  | cons e d ih =>
      obtain ⟨name', node'⟩ := e
      rw [rglob]
      rcases List.mem_cons.mp h with heq | h
      · cases heq
        exact List.mem_cons_of_mem _ (List.mem_append_left _ hx)
      · exact List.mem_cons_of_mem _ (List.mem_append_right _ (ih h))

mutual

/-- A file that is listed below a node is a file of the directory the node is. -/
theorem Node.isFile_of_rglob {content : List UInt8} : ∀ (node : Node) (dir : List FileName) (x : Listed),
    x ∈ node.rglob dir → x.node = .file content →
    ∃ entries path, node = .dir entries ∧ IsFile entries path content ∧ x.path = dir ++ path
  | .dir entries, dir, x, hx, hfile => by
      obtain ⟨path, hpath, heq⟩ := isFile_of_rglob entries dir x hx hfile
      exact ⟨entries, path, rfl, hpath, heq⟩
  | .file _, _, _, hx, _ => by cases hx
  | .symlink _, _, _, hx, _ => by cases hx
  | .special, _, _, hx, _ => by cases hx

theorem isFile_of_rglob {content : List UInt8} : ∀ (d : List (FileName × Node)) (dir : List FileName)
    (x : Listed), x ∈ rglob dir d → x.node = .file content →
    ∃ path, IsFile d path content ∧ x.path = dir ++ path
  | [], _, _, hx, _ => by cases hx
  | (name, node) :: rest, dir, x, hx, hfile => by
      rcases List.mem_cons.mp hx with rfl | hx
      · exact ⟨[name], .here (hfile ▸ List.mem_cons_self), rfl⟩
      · rcases List.mem_append.mp hx with hx | hx
        · obtain ⟨entries, path, rfl, hpath, heq⟩ := Node.isFile_of_rglob node _ x hx hfile
          exact ⟨name :: path, .inside List.mem_cons_self hpath, by rw [heq]; simp⟩
        · obtain ⟨path, hpath, heq⟩ := isFile_of_rglob rest dir x hx hfile
          refine ⟨path, ?_, heq⟩
          cases hpath with
          | here h => exact .here (List.mem_cons_of_mem _ h)
          | inside h h' => exact .inside (List.mem_cons_of_mem _ h) h'

end

/-- Every regular file is listed. -/
theorem rglob_of_isFile {path : List FileName} {content : List UInt8} (h : IsFile d path content) :
    ∀ dir, ∃ x ∈ rglob dir d, x.node = .file content ∧ x.path = dir ++ path := by
  induction h with
  | here hmem => exact fun dir => ⟨_, mem_rglob_of_mem hmem dir, rfl, rfl⟩
  | inside hmem _ ih =>
      intro dir
      obtain ⟨x, hx, hfile, hpath⟩ := ih (dir ++ [_])
      exact ⟨x, mem_rglob_of_dir hmem hx, hfile, by rw [hpath]; simp⟩

mutual

/-- The paths below a node are longer than its own, and differ. -/
theorem Node.paths : ∀ (node : Node) (dir : List FileName), node.Distinct →
    ((node.rglob dir).map Listed.path).Nodup ∧
      ∀ x ∈ node.rglob dir, ∃ name, dir ++ [name] <+: x.path
  | .dir entries, dir, h => by
      obtain ⟨hnodup, hall⟩ := paths entries dir h
      refine ⟨hnodup, fun x hx => ?_⟩
      obtain ⟨name, -, hprefix⟩ := hall x hx
      exact ⟨name, hprefix⟩
  | .file _, _, _ => ⟨List.nodup_nil, fun _ hx => by cases hx⟩
  | .symlink _, _, _ => ⟨List.nodup_nil, fun _ hx => by cases hx⟩
  | .special, _, _ => ⟨List.nodup_nil, fun _ hx => by cases hx⟩

theorem paths : ∀ (d : List (FileName × Node)) (dir : List FileName), Distinct d →
    ((rglob dir d).map Listed.path).Nodup ∧
      ∀ x ∈ rglob dir d, ∃ name ∈ d.map Prod.fst, dir ++ [name] <+: x.path
  | [], _, _ => ⟨List.nodup_nil, fun _ hx => by cases hx⟩
  | (name, node) :: rest, dir, ⟨hname, hnode, hrest⟩ => by
      obtain ⟨hnodup₁, hbelow⟩ := Node.paths node (dir ++ [name]) hnode
      obtain ⟨hnodup₂, hbeside⟩ := paths rest dir hrest
      have hfirst : ∀ x ∈ node.rglob (dir ++ [name]), dir ++ [name] <+: x.path := by
        intro x hx
        obtain ⟨name', hprefix⟩ := hbelow x hx
        exact (List.prefix_append _ _).trans hprefix
      -- Two names after the same directories cannot begin one path.
      have hapart : ∀ x ∈ rglob dir rest, ¬ dir ++ [name] <+: x.path := by
        intro x hx hprefix
        obtain ⟨name', hmem, hprefix'⟩ := hbeside x hx
        have heq := List.prefix_of_prefix_length_le hprefix hprefix' (by simp)
        have hsame : dir ++ [name] = dir ++ [name'] := heq.eq_of_length (by simp)
        obtain rfl : name = name' := by simpa using hsame
        exact hname hmem
      refine ⟨?_, fun x hx => ?_⟩
      · rw [rglob, List.map_cons, List.map_append, List.nodup_cons, List.mem_append, not_or,
          List.nodup_append]
        refine ⟨⟨fun h => ?_, fun h => ?_⟩, hnodup₁, hnodup₂, fun p hp q hq heq => ?_⟩
        · obtain ⟨x, hx, hpath⟩ := List.mem_map.mp h
          obtain ⟨name', hprefix⟩ := hbelow x hx
          have hlength := hprefix.length_le
          rw [hpath] at hlength
          simp [Listed.path] at hlength
        · obtain ⟨x, hx, hpath⟩ := List.mem_map.mp h
          exact hapart x hx (hpath ▸ List.prefix_rfl)
        · obtain ⟨x, hx, rfl⟩ := List.mem_map.mp hp
          obtain ⟨y, hy, rfl⟩ := List.mem_map.mp hq
          exact hapart y hy (heq ▸ hfirst x hx)
      · rcases List.mem_cons.mp hx with rfl | hx
        · exact ⟨name, List.mem_cons_self, List.prefix_rfl⟩
        · rcases List.mem_append.mp hx with hx | hx
          · exact ⟨name, List.mem_cons_self, hfirst x hx⟩
          · obtain ⟨name', hmem, hprefix⟩ := hbeside x hx
            exact ⟨name', List.mem_cons_of_mem _ hmem, hprefix⟩

end

/-- The regular files, not links, that are found. -/
theorem regular_iff : (node.isFile && !node.isSymlink) = true ↔ ∃ content, node = .file content := by
  cases node <;> simp [Node.isFile, Node.isSymlink]

/-- The files that are collected are the regular files of the directory, each under its
path and once. -/
theorem outputFiles_spec (h : Distinct d) : ((outputFiles d).map Prod.fst).Nodup ∧
    ∀ path f, (path, f) ∈ outputFiles d ↔
      ∃ dir name content, path = dir ++ [name] ∧ f = .of name content ∧ IsFile d path content := by
  have hperm : (sorted (rglob [] d)).Perm (rglob [] d) := List.perm_insertionSort _ _
  refine ⟨?_, fun path f => ?_⟩
  · rw [outputFiles, List.map_map]
    have hnodup := (hperm.map Listed.path).nodup_iff.mpr (paths d [] h).1
    exact hnodup.sublist (List.filter_sublist.map Listed.path)
  · simp only [outputFiles, List.mem_map, List.mem_filter, hperm.mem_iff, regular_iff, Prod.mk.injEq]
    constructor
    · rintro ⟨x, ⟨hx, content, hnode⟩, rfl, rfl⟩
      obtain ⟨path, hfile, hpath⟩ := isFile_of_rglob d [] x hx hnode
      rw [List.nil_append] at hpath
      refine ⟨x.dir, x.name, content, rfl, ?_, hpath ▸ hfile⟩
      rw [hnode]
      rfl
    · rintro ⟨dir, name, content, rfl, rfl, hfile⟩
      obtain ⟨x, hx, hnode, hpath⟩ := rglob_of_isFile hfile []
      rw [List.nil_append] at hpath
      obtain ⟨-, hname⟩ := List.append_inj' hpath rfl
      obtain rfl : x.name = name := by simpa using hname
      refine ⟨x, ⟨hx, content, hnode⟩, hpath, ?_⟩
      rw [hnode]
      rfl

end Listing

end Worker

end Rungrid
