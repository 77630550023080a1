import ClbFilesystem.Lib.Runs
import ClbFilesystem.Vfs
/-!
# The calls as a transition system

A run starts in the state `init_fs` leaves at boot and takes calls, one after the
other, of any process. Between two calls the processes may change the memory
outside the data blocks as they like.
-/

namespace ClbFilesystem

open Lib

/-- The twelve calls with their arguments. -/
inductive Call where
  | create_file (path file : Option CStr)
  | delete_file (path : Option CStr)
  | open_file (path : Option CStr) (fd : Option Int)
  | close_file (fd : Option Int)
  | read_file (fd : Option Int) (str : Nat) (len : UInt32)
  | write_file (fd : Option Int) (str : Nat) (len : UInt32)
  | append_file (fd : Option Int) (str : Nat) (len : UInt32)
  | create_dir (path dir_name : Option CStr)
  | delete_dir (path : Option CStr)
  | open_dir (path : Option CStr) (fd : Option Int)
  | close_dir (fd : Option Int)
  | get_next_dir_son (fd : Option Int) (son_name : Nat)

/-- The value a call returns. -/
inductive Ret where
  | error (e : VfsError)
  | count (n : Int)
  deriving DecidableEq, Repr

/-- What the caller gets: the value returned and its variable `*fd` after the call. -/
structure Reply where
  ret : Ret
  fd : Option Int := none
  deriving DecidableEq, Repr

def Reply.ofError (r : VfsError × State) : Reply × State := ({ ret := .error r.1 }, r.2)
def Reply.ofFd (r : (VfsError × Option Int) × State) : Reply × State := ({ ret := .error r.1.1, fd := r.1.2 }, r.2)
def Reply.ofCount (fd : Option Int) (r : Int × State) : Reply × State := ({ ret := .count r.1, fd := fd }, r.2)

def exec : Call → State → Except Fault (Reply × State)
  | .create_file path file, s => (create_file path file s).map Reply.ofError
  | .delete_file path, s => (delete_file path s).map Reply.ofError
  | .open_file path fd, s => (open_file path fd s).map Reply.ofFd
  | .close_file fd, s => (close_file fd s).map Reply.ofFd
  | .read_file fd str len, s => (read_file fd str len s).map (Reply.ofCount fd)
  | .write_file fd str len, s => (write_file fd str len s).map (Reply.ofCount fd)
  | .append_file fd str len, s => (append_file fd str len s).map (Reply.ofCount fd)
  | .create_dir path dir_name, s => (create_dir path dir_name s).map Reply.ofError
  | .delete_dir path, s => (delete_dir path s).map Reply.ofError
  | .open_dir path fd, s => (open_dir path fd s).map Reply.ofFd
  | .close_dir fd, s => (close_dir fd s).map Reply.ofFd
  | .get_next_dir_son fd son_name, s => (get_next_dir_son fd son_name s).map Reply.ofFd

/-- The addresses of the data blocks: the pages `init_fs` gets at boot. -/
def InBlocks (a : Nat) : Prop := pageAddr 0 ≤ a ∧ a < pageAddr FS_NPAGES

instance (a : Nat) : Decidable (InBlocks a) := inferInstanceAs (Decidable (_ ∧ _))

inductive Event where
  | call (c : Call) (r : Reply)
  /-- Processes write to their own memory. -/
  | user

inductive Next : State → Event → State → Prop
  | call {s c r s'} : exec c s = .ok (r, s') → Next s (.call c r) s'
  | user {s} {mem : Mem} : (∀ a, InBlocks a → mem a = s.mem a) → Next s .user { s with mem := mem }

/-- A run of the system: from boot, over the steps `tr`, to `s`. -/
def Runs (tr : List (Step State Event)) (s : State) : Prop :=
  ∃ mem s₀, init_fs (boot mem) = .ok s₀ ∧ Run Next s₀ tr s

def Reachable (s : State) : Prop := ∃ tr, Runs tr s

theorem Reachable.next {s s' : State} {e : Event} (h : Reachable s) (hn : Next s e s') : Reachable s' := by
  obtain ⟨tr, mem, s₀, hb, hr⟩ := h
  exact ⟨_, mem, s₀, hb, .snoc hr hn⟩

theorem Reachable.call {s s' : State} {c : Call} {r : Reply} (h : Reachable s) (hc : exec c s = .ok (r, s')) :
    Reachable s' := h.next (.call hc)

/-- What boot establishes and every step keeps holds in every reachable state. -/
theorem Reachable.inv (I : State → Prop) (hboot : ∀ mem s₀, init_fs (boot mem) = .ok s₀ → I s₀)
    (hstep : ∀ s e s', I s → Next s e s' → I s') {s : State} (h : Reachable s) : I s := by
  obtain ⟨tr, mem, s₀, hb, hr⟩ := h
  exact hr.inv I (hboot mem s₀ hb) hstep

/-- Every step of a run starts in a reachable state. -/
theorem Runs.of_mem {tr : List (Step State Event)} {s : State} (h : Runs tr s) :
    ∀ st ∈ tr, Reachable st.pre ∧ Next st.pre st.event st.post := by
  obtain ⟨mem, s₀, hb, hr⟩ := h
  intro st hst
  obtain ⟨tr', hr', hn⟩ := hr.of_mem st hst
  exact ⟨⟨tr', mem, s₀, hb, hr'⟩, hn⟩

theorem Runs.of_snoc {tr : List (Step State Event)} {st : Step State Event} {s : State} (h : Runs (tr ++ [st]) s) :
    Runs tr st.pre ∧ Next st.pre st.event st.post ∧ s = st.post := by
  obtain ⟨mem, s₀, hb, hr⟩ := h
  obtain ⟨hrun, hn, hs⟩ := hr.of_snoc
  exact ⟨⟨mem, s₀, hb, hrun⟩, hn, hs⟩

end ClbFilesystem
