import ClbFilesystem.Lib.Runs
import ClbFilesystem.System
import ClbFilesystem.Boot
import ClbFilesystem.Invariant
import ClbFilesystem.Resolve
import ClbFilesystem.Create
import ClbFilesystem.Delete
import ClbFilesystem.Descriptors
import ClbFilesystem.Transfer
import ClbFilesystem.Effect
import ClbFilesystem.Table
import ClbFilesystem.Abstract
import ClbFilesystem.Namespace
import ClbFilesystem.Content
import ClbFilesystem.Stale
import ClbFilesystem.Lib.Handles
import ClbFilesystem.RefCount
import ClbFilesystem.Instances
import ClbFilesystem.Paths
import ClbFilesystem.Root
import ClbFilesystem.RoundTrip
import ClbFilesystem.Names
import ClbFilesystem.Guards
import ClbFilesystem.FailedOpen
import ClbFilesystem.Lib.Iter
import ClbFilesystem.Iteration
import ClbFilesystem.Listing
import ClbFilesystem.Lib.Handover
import ClbFilesystem.Reentrancy
import ClbFilesystem.Paging
import ClbFilesystem.Sched
import ClbFilesystem.Pages
import ClbFilesystem.Tasks
import ClbFilesystem.Preemption
import ClbFilesystem.Select
import ClbFilesystem.TaskSlots
import ClbFilesystem.AddressSpace
import ClbFilesystem.Fork
import ClbFilesystem.Interrupts
import ClbFilesystem.Nesting
import ClbFilesystem.Turns
import ClbFilesystem.Lengths
import ClbFilesystem.Meaning
import ClbFilesystem.NameField
import ClbFilesystem.Nulls
import ClbFilesystem.Reads
import ClbFilesystem.Sequential
import ClbFilesystem.Choice
import ClbFilesystem.Fairness
import ClbFilesystem.Printf
import ClbFilesystem.Lib.Numerals
import ClbFilesystem.Conversions
import ClbFilesystem.PageTree
import ClbFilesystem.Translations
import ClbFilesystem.Exhaustion
import ClbFilesystem.Allocator
import ClbFilesystem.Lib.A64
import ClbFilesystem.Assembly
import ClbFilesystem.Lib.Simulation
import ClbFilesystem.Os
import ClbFilesystem.Ownership
import ClbFilesystem.Isolation
import ClbFilesystem.Orderly
import ClbFilesystem.Confinement
import ClbFilesystem.Lib.Walk
import ClbFilesystem.Mmu
import ClbFilesystem.Lib.Exceptions
import ClbFilesystem.Entry
import ClbFilesystem.Traps
import ClbFilesystem.Switch
import ClbFilesystem.Calls
