import Cosmost.Limits
import Cosmost.Lib.Text
import Mathlib.Data.List.TakeWhile

/-!
# The name of a process (`process.c`)

`process_name` reads `/proc/self/cmdline` once for a pid and keeps the name, unless that is `zygote`: then it reads again
at every call, since a process forked from zygote gets its own name later. `malloc` is taken to succeed.
-/

namespace Cosmost.ProcessName

open Cosmost.Lib

/-- What a process can read about itself; `cmdline` is the bytes of `/proc/self/cmdline`, none if it cannot be read. -/
structure Self where
  pid : Nat
  uid : Nat
  cmdline : List Char
  pos : 0 < pid

/-- It under another name. -/
def Self.renamed (self : Self) (uid : Nat) (cmdline : List Char) : Self := ⟨self.pid, uid, cmdline, self.pos⟩

/-- `procname_pid`: the name that was read last, and the pid then. -/
structure Cache where
  pid : Nat
  name : List Char
  nulFree : NulFree name

/-- Nothing was read. -/
def Cache.empty : Cache := ⟨0, [], List.not_mem_nil⟩

/-- `read_process_name`, as the C string it leaves. -/
def readProcessName (self : Self) : List Char :=
  let bytes := self.cmdline.take (pathMax - 1)
  if bytes.length > 0 then bytes.takeWhile (· != nul) else fits 255 (decimal self.uid)

theorem readProcessName_nulFree (self : Self) : NulFree (readProcessName self) := by
  simp only [readProcessName]
  split_ifs
  · intro hn
    simpa using List.mem_takeWhile_imp hn
  · exact fun hn => decimal_nulFree _ (List.mem_of_mem_take hn)

/-- The name in the cache is good for the pid. -/
def Cache.Valid (c : Cache) (self : Self) : Prop := c.pid = self.pid ∧ c.name ≠ "zygote".toList

instance (c : Cache) (self : Self) : Decidable (c.Valid self) := inferInstanceAs (Decidable (_ ∧ _))

/-- `process_name`: the name, and the cache. -/
def processName (self : Self) (c : Cache) : List Char × Cache :=
  if c.Valid self then (c.name, c)
  else (readProcessName self, ⟨self.pid, readProcessName self, readProcessName_nulFree self⟩)

theorem processName_nulFree (self : Self) (c : Cache) : NulFree (processName self c).1 := by
  unfold processName
  split_ifs
  · exact c.nulFree
  · exact readProcessName_nulFree self

/-- Asking again gives the same name. -/
theorem processName_again (self : Self) (c : Cache) :
    (processName self (processName self c).2).1 = (processName self c).1 := by
  unfold processName
  by_cases hc : c.Valid self
  · rw [if_pos hc, if_pos hc]
  · rw [if_neg hc]
    split_ifs <;> rfl

/-- A name in the cache hides what is read. -/
theorem processName_valid {self : Self} {c : Cache} (h : c.Valid self) : (processName self c).1 = c.name := by
  rw [processName, if_pos h]

theorem processName_read {self : Self} {c : Cache} (h : ¬ c.Valid self) :
    (processName self c).1 = readProcessName self := by
  rw [processName, if_neg h]

end Cosmost.ProcessName
