import Quicksort.Config
import Quicksort.Generator.Basic
import Quicksort.Generator.ChaCha
import Quicksort.Mismatch
import Quicksort.Partition.Basic
import Quicksort.Partition.Cursor
import Quicksort.Partition.Scan
import Quicksort.Pivot
import Quicksort.Probe
import Quicksort.Proofs.Agenda
import Quicksort.Proofs.Arrangement
import Quicksort.Proofs.Choice
import Quicksort.Proofs.Commute
import Quicksort.Proofs.Comparisons
import Quicksort.Proofs.Cost
import Quicksort.Proofs.Counters
import Quicksort.Proofs.Depth
import Quicksort.Proofs.Descending
import Quicksort.Proofs.Distinct
import Quicksort.Proofs.Draws
import Quicksort.Proofs.Expectation
import Quicksort.Proofs.Lockstep
import Quicksort.Proofs.Monotone
import Quicksort.Proofs.Outline
import Quicksort.Proofs.Partition
import Quicksort.Proofs.Potential
import Quicksort.Proofs.Rearrangement
import Quicksort.Proofs.Scan
import Quicksort.Proofs.Rounds
import Quicksort.Proofs.Schedules
import Quicksort.Proofs.Script
import Quicksort.Proofs.Segment
import Quicksort.Proofs.Shape
import Quicksort.Proofs.Sorting
import Quicksort.Proofs.Strays
import Quicksort.Proofs.Swaps
import Quicksort.Proofs.Tally
import Quicksort.Proofs.Tandem
import Quicksort.Proofs.Trial
import Quicksort.Proofs.Verdict
import Quicksort.Proofs.Waiting
import Quicksort.Range
import Quicksort.Sampling
import Quicksort.Schedule.Recursive
import Quicksort.Schedule.Stack
import Quicksort.Script
import Quicksort.Segment
import Quicksort.Session
import Quicksort.Sort
import Quicksort.Split
import Quicksort.Tally
import Quicksort.Trial
import Quicksort.Workload
