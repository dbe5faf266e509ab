import AtxSys.Lib.CText
import Mathlib.Tactic.Common

/-!
# Options that take no argument

`getopt` with an option string of letters and `?`, called until it returns -1 on the elements behind
the name of the program. A program may look at `argv[optind]` after each call; permuting moves only
elements before `optind`, so that it finds the element of the command line as it was given.
-/

namespace Getopt

open CText

/-- `-` -/
abbrev dash : UInt8 := 0x2D

abbrev question : UInt8 := 0x3F

/-- A call that returns an option, with `argv[optind]` after it. -/
structure Opt where
  char : UInt8
  arg : Option Bytes
  deriving DecidableEq

/-- An element whose bytes behind the first one are options. -/
def IsCluster (element : Bytes) : Prop :=
  element.head? = some dash ∧ element.tail ≠ [] ∧ element ≠ [dash, dash]

instance (element : Bytes) : Decidable (IsCluster element) :=
  inferInstanceAs (Decidable (_ ∧ _))

section Scan

variable (optstring : Bytes)

def optChar (c : UInt8) : UInt8 := if c ∈ optstring then c else question

/-- The options of an element, of which `cluster` is left; `next` is behind the element. -/
def clusterOpts (element : Bytes) (next : Option Bytes) : Bytes → List Opt
  | [] => []
  | c :: cluster =>
    ⟨optChar optstring c, if cluster = [] then next else some element⟩ ::
      clusterOpts element next cluster

/-- All options of a command line; without `permute` they end at the first operand. -/
def scan (permute : Bool) : List Bytes → List Opt
  | [] => []
  | element :: elements =>
    if element = [dash, dash] then []
    else if IsCluster element then
      clusterOpts optstring element elements.head? element.tail ++ scan permute elements
    else if permute then scan permute elements else []

end Scan

variable {optstring : Bytes}

/-- An element that `getopt` passes over. -/
abbrev Operand := { element : Bytes // ¬IsCluster element ∧ element ≠ [dash, dash] }

theorem scan_option {c : UInt8} (hc : c ∈ optstring) (hdash : c ≠ dash) (permute : Bool)
    (elements : List Bytes) :
    scan optstring permute ([dash, c] :: elements) =
      ⟨c, elements.head?⟩ :: scan optstring permute elements := by
  have hne : [dash, c] ≠ [dash, dash] := by
    intro h
    exact hdash (List.head_eq_of_cons_eq (List.tail_eq_of_cons_eq h))
  have hcluster : IsCluster [dash, c] := ⟨rfl, List.cons_ne_nil _ _, hne⟩
  rw [scan, if_neg hne, if_pos hcluster, List.tail_cons, clusterOpts, clusterOpts, optChar,
    if_pos hc, if_pos rfl, List.singleton_append]

theorem scan_operand (operand : Operand) (permute : Bool) (elements : List Bytes) :
    scan optstring permute (operand.1 :: elements) =
      if permute then scan optstring permute elements else [] := by
  rw [scan, if_neg operand.2.2, if_neg operand.2.1]

theorem clusterOpts_char (element : Bytes) (next : Option Bytes) (cluster : Bytes) :
    (clusterOpts optstring element next cluster).map Opt.char =
      cluster.map (optChar optstring) := by
  induction cluster with
  | nil => rfl
  | cons c cluster ih => rw [clusterOpts, List.map_cons, List.map_cons, ih]

/-- The elements that `getopt` takes options from. -/
def clusters (permute : Bool) (argv : List Bytes) : List Bytes :=
  if permute then (argv.takeWhile (· ≠ [dash, dash])).filter IsCluster
  else argv.takeWhile IsCluster

theorem scan_char (permute : Bool) (argv : List Bytes) :
    (scan optstring permute argv).map Opt.char =
      (clusters permute argv).flatMap fun element => element.tail.map (optChar optstring) := by
  induction argv with
  | nil => cases permute <;> rfl
  | cons element elements ih =>
      rw [scan]
      split
      · rename_i hend
        subst hend
        cases permute <;> rfl
      · rename_i hend
        split
        · rename_i hcluster
          have hclusters : clusters permute (element :: elements) =
              element :: clusters permute elements := by
            cases permute <;> simp [clusters, hend, hcluster]
          rw [List.map_append, clusterOpts_char, ih, hclusters, List.flatMap_cons]
        · rename_i hcluster
          cases permute with
          | true =>
              have hclusters : clusters true (element :: elements) = clusters true elements := by
                simp [clusters, hend, hcluster]
              rw [if_pos rfl, ih, hclusters]
          | false =>
              have hclusters : clusters false (element :: elements) = [] := by
                simp [clusters, hcluster]
              rw [if_neg Bool.false_ne_true, hclusters]
              rfl

end Getopt
