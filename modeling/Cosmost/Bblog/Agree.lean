import Cosmost.Bblog.Exit
import Cosmost.Blog

/-!
# Batched and unbatched logging

A run of `bblog` that ends with the exit of a signal handler logs the same bodies as `blog`, in the same order, cut into
groups (`batched_agrees`): every record that `blog` accepts fits an empty batch buffer (`fitsEmpty_of_room`), a buffer is
written when the next record does not fit it, and what is written is the prefix and the records of the group, closed.

The counters of the records increase as long as the 64-bit counter does not wrap; `wrap_not_increasing` is a run in
which it does.
-/

namespace Cosmost.Bblog

open Cosmost.Lib

/-- `"\"REC_n\":body,"`. -/
def recText (r : Nat × List Char) : List Char :=
  "\"REC_".toList ++ (decimal r.1 ++ ("\":".toList ++ (r.2 ++ [','])))

/-- An entry of the batched log: the prefix and the records, the last comma replaced. -/
def batchEntry (e : Process) (group : List (Nat × List Char)) : List Char :=
  (prefixText e ++ (group.map recText).flatten).dropLast ++ "\x7d\x7d".toList

/-- The entries that went to the log. -/
def logged (tr : List Event) : List (List Char) :=
  tr.filterMap fun
    | .stored .. => none
    | .written _ text => some text
    | .unbatched text => some text

/-- The bodies with the counters that they get when the counter stands at `c`. -/
def numbered : Nat → List (List Char) → List (Nat × List Char)
  | _, [] => []
  | c, body :: bodies => ((c + 1) % 2 ^ 64, body) :: numbered ((c + 1) % 2 ^ 64) bodies

/-- The log is made of consecutive groups of the bodies, with these counters. -/
structure Grouped (e : Process) (bodies : List (List Char)) (log : List (List Char))
    (groups : List (List (Nat × List Char))) : Prop where
  entries : log = groups.map (batchEntry e)
  nonempty : ∀ g ∈ groups, g ≠ []
  bodies : groups.flatten.map Prod.snd = bodies

/-- The counters increase over the whole run. -/
def Increasing (groups : List (List (Nat × List Char))) : Prop := (groups.flatten.map Prod.fst).Pairwise (· < ·)

/-! ## Records and counters -/

theorem recText_eq (r : Nat × List Char) :
    recText r = "\"REC_".toList ++ (decimal r.1 ++ ("\":".toList ++ (r.2 ++ [',']))) := rfl

theorem recText_ne_nil (r : Nat × List Char) : recText r ≠ [] :=
  List.append_ne_nil_of_left_ne_nil (by decide) _

theorem length_recText (r : Nat × List Char) : (recText r).length = 8 + (decimal r.1).length + r.2.length := by
  have h1 : "\"REC_".toList.length = 5 := rfl
  have h2 : "\":".toList.length = 2 := rfl
  simp only [recText_eq, List.length_append, List.length_singleton, h1, h2]
  omega

/-- `bblog` prints the key whole. -/
theorem record_eq {n : Nat} (hn : n < 2 ^ 64) (body : List Char) :
    record (recordKey n) (some body) = recText (n, body) := by
  have hd := length_decimal_le (k := 20) (by omega) (Nat.lt_of_lt_of_le hn (by norm_num))
  have h1 : "\"REC_".toList.length = 5 := rfl
  have h2 : "\":".toList.length = 2 := rfl
  have hkey : recordKey n = "\"REC_".toList ++ (decimal n ++ "\":".toList) := by
    apply fits_eq
    simp only [List.length_append, h1, h2]
    omega
  simp only [record, hkey, recText_eq, List.append_assoc]

theorem recText_nulFree {r : Nat × List Char} (h : NulFree r.2) : NulFree (recText r) := by
  have h1 : NulFree "\"REC_".toList := by unfold NulFree nul; decide
  have h2 : NulFree "\":".toList := by unfold NulFree nul; decide
  have h3 : NulFree [','] := by unfold NulFree nul; decide
  exact h1.append ((decimal_nulFree _).append (h2.append (h.append h3)))

theorem flatten_nulFree {rs : List (Nat × List Char)} (h : ∀ r ∈ rs, NulFree r.2) :
    NulFree (rs.map recText).flatten := by
  refine nulFree_flatten fun l hl => ?_
  obtain ⟨r, hr, rfl⟩ := List.mem_map.mp hl
  exact recText_nulFree (h r hr)

theorem flatten_recText_eq_nil {rs : List (Nat × List Char)} : (rs.map recText).flatten = [] ↔ rs = [] := by
  cases rs with
  | nil => simp
  | cons r rs => simp [recText_ne_nil]

theorem numbered_snd (c : Nat) (bodies : List (List Char)) : (numbered c bodies).map Prod.snd = bodies := by
  induction bodies generalizing c with
  | nil => rfl
  | cons body bodies ih => simp [numbered, ih]

theorem numbered_mem {bodies : List (List Char)} {r : Nat × List Char} : ∀ {c : Nat}, r ∈ numbered c bodies →
    r.1 < 2 ^ 64 ∧ r.2 ∈ bodies := by
  induction bodies with
  | nil => intro c h; exact absurd h List.not_mem_nil
  | cons body bodies ih =>
    intro c h
    rcases List.mem_cons.mp h with rfl | h
    · exact ⟨Nat.mod_lt _ (by norm_num), List.mem_cons_self⟩
    · exact ⟨(ih h).1, List.mem_cons_of_mem _ (ih h).2⟩

/-- Without a wrap the counters are those from `c + 1` on. -/
theorem numbered_fst {bodies : List (List Char)} : ∀ {c : Nat}, c + bodies.length < 2 ^ 64 →
    (numbered c bodies).map Prod.fst = List.range' (c + 1) bodies.length := by
  induction bodies with
  | nil => intro c _; rfl
  | cons body bodies ih =>
    intro c hc
    rw [List.length_cons] at hc
    have hmod : (c + 1) % 2 ^ 64 = c + 1 := Nat.mod_eq_of_lt (by omega)
    rw [numbered, hmod, List.map_cons, ih (by omega), List.length_cons, List.range'_succ]

/-- The counter of the last record. -/
theorem numbered_snoc (body : List Char) {bodies : List (List Char)} : ∀ {c : Nat},
    numbered c (bodies ++ [body]) = numbered c bodies ++ [((c + bodies.length + 1) % 2 ^ 64, body)] := by
  induction bodies with
  | nil => intro c; rfl
  | cons b bodies ih =>
    intro c
    have hmod : ((c + 1) % 2 ^ 64 + bodies.length + 1) % 2 ^ 64 = (c + (bodies.length + 1) + 1) % 2 ^ 64 := by omega
    rw [List.cons_append, numbered, ih, numbered, List.length_cons, hmod, List.cons_append]

/-- The prefix of the unbatched logger is longer. -/
theorem length_prefixText_lt (e : Process) (n : Nat) :
    (prefixText e).length + 5 + (decimal n).length = (Blog.prefixText e n).length := by
  rw [length_prefixText, Blog.length_prefixText]
  omega

/-- **A record with room in the unbatched buffer fits an empty batch buffer.** -/
theorem fitsEmpty_of_room {e : Process} {n k : Nat} {body : List Char} (hk : k < 2 ^ 64)
    (h : (Blog.prefixText e n).length + body.length < noBatchBufferSize - 2) :
    FitsEmpty (prefixText e).length (recText (k, body)) := by
  have h1 := length_prefixText_lt e n
  have h2 := length_decimal_pos n
  have h3 := length_decimal_le (k := 20) (by omega) (Nat.lt_of_lt_of_le hk (by norm_num))
  rw [noBatchBufferSize_eq] at h
  rw [FitsEmpty, length_recText, loggerEntryMaxPayload_eq]
  simp only
  omega

/-! ## Runs -/

/-- The groups that went to the log, and the records in the current buffer. -/
structure Batched (e : Process) (s : State) (groups : List (List (Nat × List Char)))
    (pending : List (Nat × List Char)) : Prop where
  running : Running e s (pending.map recText)
  nulFree : ∀ r ∈ pending, NulFree r.2
  entries : logged s.trace = groups.map (batchEntry e)
  nonempty : ∀ g ∈ groups, g ≠ []

/-- The current buffer, closed, is the entry of its records. -/
theorem Batched.closedText {e : Process} {s : State} {groups : List (List (Nat × List Char))}
    {pending : List (Nat × List Char)} (h : Batched e s groups pending) :
    closedText (s.mem s.procPibr).buf ((prefixText e).length + (pending.map recText).flatten.length)
      = batchEntry e pending := by
  have hholds := h.running.holds
  have hroom := h.running.room
  rw [h.running.prefixBuf] at hholds
  rw [← h.running.len, h.running.prefixBuf, loggerEntryMaxPayload_eq] at hroom
  have hpos := length_prefixText_pos e
  have htext := closedText_eq ((prefixText_nulFree e).append (flatten_nulFree h.nulFree)) hholds
    (by rw [List.length_append]; omega) (by rw [List.length_append, pibrBufSize_eq]; omega)
  rw [List.length_append] at htext
  exact htext

/-- More groups. -/
theorem Batched.logged_append {e : Process} {s : State} {groups : List (List (Nat × List Char))}
    {pending : List (Nat × List Char)} (h : Batched e s groups pending) (hne : pending ≠ []) :
    logged s.trace ++ [Bblog.closedText (s.mem s.procPibr).buf
        ((prefixText e).length + (pending.map recText).flatten.length)] = (groups ++ [pending]).map (batchEntry e) ∧
      ∀ g ∈ groups ++ [pending], g ≠ [] := by
  refine ⟨by rw [h.closedText, h.entries, List.map_append, List.map_singleton], fun g hg => ?_⟩
  rcases List.mem_append.mp hg with hg | hg
  · exact h.nonempty g hg
  · rw [List.mem_singleton.mp hg]; exact hne

section Run

variable {A : Allocator} {e : Process} (he : e.Fits) (hA : Serves A)
include he hA

/-- One call of `bblog`. -/
theorem Batched.step {s : State} {groups : List (List (Nat × List Char))} {pending : List (Nat × List Char)}
    (h : Batched e s groups pending) {body : List Char} (hbody : NulFree body)
    (hm : FitsEmpty (prefixText e).length (recText (s.nextCntr, body))) (n : Nat) :
    ∃ s' ret groups' pending', bblog A e (n + 2) (some body) s = .ok (ret, s') ∧ s'.cntr = s.nextCntr ∧
      Batched e s' groups' pending' ∧
      groups'.flatten ++ pending' = groups.flatten ++ pending ++ [(s.nextCntr, body)] := by
  have hrec : record (recordKey s.nextCntr) (some body) = recText (s.nextCntr, body) :=
    record_eq (Nat.mod_lt _ (by norm_num)) body
  obtain ⟨s', ret, hs', hc, hp⟩ := bblog_placed he hA h.running (hrec.symm ▸ hm) n
  rw [hrec] at hp
  cases hp with
  | behind hr htr =>
    refine ⟨s', ret, groups, pending ++ [(s.nextCntr, body)], hs', hc, ⟨?_, ?_, ?_, h.nonempty⟩,
      (List.append_assoc _ _ _).symm⟩
    · rw [List.map_append, List.map_singleton]; exact hr
    · simpa [or_imp, forall_and] using ⟨fun a b hab => h.nulFree (a, b) hab, hbody⟩
    · rw [htr, ← h.entries]; simp [logged]
  | front hne hr htr =>
    obtain ⟨hlog, hnonempty⟩ := h.logged_append (fun hnil => hne (flatten_recText_eq_nil.mpr hnil))
    refine ⟨s', ret, groups ++ [pending], [(s.nextCntr, body)], hs', hc, ⟨hr, ?_, ?_, hnonempty⟩, by simp⟩
    · simpa using hbody
    · rw [htr, ← hlog]; simp [logged]

/-- A run of `bblog`. -/
theorem Batched.run (n : Nat) {bodies : List (List Char)} (hbodies : ∀ b ∈ bodies, NulFree b) : ∀ {s : State}
    {groups : List (List (Nat × List Char))} {pending : List (Nat × List Char)}, Batched e s groups pending →
    (∀ r ∈ numbered s.cntr bodies, FitsEmpty (prefixText e).length (recText r)) →
    ∃ s' groups' pending', logAll A e (n + 2) (bodies.map some) s = .ok s' ∧ Batched e s' groups' pending' ∧
      groups'.flatten ++ pending' = groups.flatten ++ pending ++ numbered s.cntr bodies := by
  induction bodies with
  | nil => intro s groups pending h _; exact ⟨s, groups, pending, rfl, h, (List.append_nil _).symm⟩
  | cons body bodies ih =>
    intro s groups pending h hfits
    obtain ⟨s₁, ret, groups₁, pending₁, hs₁, hc, hb, happ⟩ :=
      h.step he hA (hbodies body List.mem_cons_self) (hfits _ List.mem_cons_self) n
    obtain ⟨s', groups', pending', hs', hb', happ'⟩ := ih (fun b hm => hbodies b (List.mem_cons_of_mem _ hm)) hb
      (fun r hr => hfits r (List.mem_cons_of_mem _ (by rwa [hc] at hr)))
    refine ⟨s', groups', pending', by simp only [List.map_cons, logAll, hs₁, bind, Except.bind]; exact hs', hb', ?_⟩
    rw [happ', happ, hc, List.append_assoc]
    rfl

end Run

/-- `bblog_init`, `bblog` for each of the bodies, and the exit of a signal handler. -/
def signalRun (A : Allocator) (e : Process) (n : Nat) (bodies : List (List Char)) (c : Nat) (mem : Nat → Pibr)
    (sig : Nat) : Except Stuck State := do
  let s ← logAll A e n (bodies.map some) (bblogInit A e (.init c mem))
  bblogExit A e (-(sig + 1)) s

/-- The log of such a run: consecutive groups of the bodies, numbered in order. -/
theorem signalRun_grouped {A : Allocator} (hA : Serves A) {e : Process} (he : e.Fits) (n : Nat)
    {bodies : List (List Char)} (hbodies : ∀ b ∈ bodies, NulFree b) {c : Nat}
    (hfits : ∀ r ∈ numbered c bodies, FitsEmpty (prefixText e).length (recText r)) (mem : Nat → Pibr) (sig : Nat) :
    ∃ s' groups, signalRun A e (n + 2) bodies c mem sig = .ok s' ∧ Grouped e bodies (logged s'.trace) groups ∧
      groups.flatten = numbered c bodies := by
  obtain ⟨hr, htr, hc⟩ := bblogInit_running he hA c mem
  have hstart : Batched e (bblogInit A e (.init c mem)) [] [] :=
    ⟨hr, fun _ hm => absurd hm List.not_mem_nil, by rw [htr]; rfl, fun _ hm => absurd hm List.not_mem_nil⟩
  obtain ⟨s₁, groups, pending, hs₁, hb, happ⟩ := hstart.run he hA n hbodies (by rwa [hc])
  rw [hc, List.flatten_nil, List.nil_append, List.nil_append] at happ
  obtain ⟨s', hs', htrace⟩ := bblogExit_signal he hA hb.running sig
  have hrun : signalRun A e (n + 2) bodies c mem sig = .ok s' := by
    simp only [signalRun, hs₁, bind, Except.bind]
    exact hs'
  by_cases hne : pending = []
  · subst hne
    rw [List.append_nil] at happ
    have hlog : logged s'.trace = logged s₁.trace := by rw [htrace]; simp
    exact ⟨s', groups, hrun, ⟨by rw [hlog, hb.entries], hb.nonempty, by rw [happ, numbered_snd]⟩, happ⟩
  · obtain ⟨hentries, hnonempty⟩ := hb.logged_append hne
    rw [if_neg (by rwa [flatten_recText_eq_nil])] at htrace
    have hflat : (groups ++ [pending]).flatten = numbered c bodies := by rw [List.flatten_concat, happ]
    have hlog : logged s'.trace = (groups ++ [pending]).map (batchEntry e) := by
      rw [← hentries, htrace, logged, List.filterMap_append]
      rfl
    exact ⟨s', groups ++ [pending], hrun, ⟨hlog, hnonempty, by rw [hflat, numbered_snd]⟩, hflat⟩

/-- **Batched logging agrees with unbatched logging.** For every sequence of bodies that `blog` accepts, a run of
`bblog` that ends with the exit of a signal handler returns, its log is made of consecutive non-empty groups of the
bodies, and `blog` logs the same bodies one an entry. The counters increase if the 64-bit counter does not wrap. -/
theorem batched_agrees (A : Allocator) (hA : Serves A) (e : Process) (hpid : e.pid ≤ pidMax) (n : Nat)
    (bodies : List (List Char)) (hbodies : ∀ b ∈ bodies, NulFree b)
    (hname : bodies = [] → (prefixText e).length < maxPrefixLen) (c c' : Nat) (buf : Bytes) (t : Blog.State)
    (haccept : Blog.blogAll e bodies (.init c' buf) = some t) (mem : Nat → Pibr) (sig : Nat)
    (hcntr : c + bodies.length < 2 ^ 64) :
    ∃ s' groups, signalRun A e (n + 2) bodies c mem sig = .ok s' ∧ Grouped e bodies (logged s'.trace) groups ∧
      Increasing groups ∧ t.log = bodies.map (Blog.entry (Blog.prefixText e ((c' + 1) % 2 ^ 64))) := by
  obtain ⟨hroom, hlog⟩ := Blog.blogAll_log hbodies haccept
  have he : e.Fits := by
    refine ⟨hpid, ?_⟩
    cases bodies with
    | nil => exact hname rfl
    | cons body bodies =>
      have h1 := (hroom body List.mem_cons_self).1
      have h2 := length_prefixText_lt e ((c' + 1) % 2 ^ 64)
      omega
  have hfits : ∀ r ∈ numbered c bodies, FitsEmpty (prefixText e).length (recText r) := fun r hr =>
    fitsEmpty_of_room (numbered_mem hr).1 (hroom r.2 (numbered_mem hr).2).2
  obtain ⟨s', groups, hrun, hgrouped, hflat⟩ := signalRun_grouped hA he n hbodies hfits mem sig
  refine ⟨s', groups, hrun, hgrouped, ?_, hlog⟩
  rw [Increasing, hflat, numbered_fst hcntr]
  exact List.pairwise_lt_range'

/-- A run of two records. -/
theorem two_bodies_agree : ∃ s' groups, signalRun twoPages app 2 [['x'], ['y']] 0 (fun _ => ⟨0, fun _ => nul⟩) 14 = .ok s' ∧
    Grouped app [['x'], ['y']] (logged s'.trace) groups ∧ Increasing groups ∧
    ((Blog.blogAll app [['x'], ['y']] (.init 0 fun _ => nul)).get (by decide +kernel)).log
      = [['x'], ['y']].map (Blog.entry (Blog.prefixText app 1)) :=
  batched_agrees twoPages twoPages_serves app (by decide) 0 [['x'], ['y']] (by unfold NulFree nul; decide)
    (fun h => absurd h (by decide)) 0 0 _ _ (Option.some_get _).symm _ 14 (by decide)

/-! ## Runs that do not agree -/

/-- The end of an entry. -/
theorem batchEntry_concat (e : Process) (group : List (Nat × List Char)) (k : Nat) (body : List Char) :
    batchEntry e (group ++ [(k, body)]) = (prefixText e ++ (group.map recText).flatten ++ "\"REC".toList) ++
      '_' :: decimal k ++ ("\":".toList ++ body ++ "\x7d\x7d".toList) := by
  have hkey : "\"REC_".toList = "\"REC".toList ++ ['_'] := rfl
  have hcomma : prefixText e ++ ((group ++ [(k, body)]).map recText).flatten =
      prefixText e ++ (group.map recText).flatten ++ "\"REC".toList ++ '_' :: decimal k ++ ("\":".toList ++ body) ++
        [','] := by
    simp only [List.map_append, List.flatten_append, List.map_singleton, List.flatten_singleton, recText_eq, hkey,
      List.append_assoc, List.cons_append, List.nil_append]
  rw [batchEntry, hcomma, List.dropLast_concat, List.append_assoc, List.append_assoc]

/-- The last record of a log made of groups. -/
theorem Grouped.last {e : Process} {bodies : List (List Char)} {body : List Char} {log : List (List Char)}
    {groups : List (List (Nat × List Char))} (h : Grouped e (bodies ++ [body]) log groups) :
    ∃ k rs log' p, groups.flatten = rs ++ [(k, body)] ∧
      log = log' ++ [p ++ '_' :: decimal k ++ ("\":".toList ++ body ++ "\x7d\x7d".toList)] := by
  have hbodies := h.bodies
  rcases List.eq_nil_or_concat groups with rfl | ⟨gs, g, rfl⟩
  · simp at hbodies
  · rw [List.concat_eq_append] at h hbodies ⊢
    rcases List.eq_nil_or_concat g with rfl | ⟨rs, r, rfl⟩
    · exact absurd rfl (h.nonempty [] (by simp))
    · rw [List.concat_eq_append, List.flatten_concat, ← List.append_assoc, List.map_append, List.map_singleton] at hbodies
      obtain ⟨k, b⟩ := r
      obtain rfl : b = body := List.singleton_inj.mp (List.append_inj' hbodies rfl).2
      refine ⟨k, gs.flatten ++ rs, gs.map (batchEntry e),
        prefixText e ++ (rs.map recText).flatten ++ "\"REC".toList, ?_, ?_⟩
      · rw [List.concat_eq_append, List.flatten_concat, List.append_assoc]
      · rw [h.entries, List.map_append, List.map_singleton, List.concat_eq_append, batchEntry_concat]

/-- Whatever groups a log is made of, the last record has the same counter. -/
theorem Grouped.last_counter {e : Process} {bodies : List (List Char)} {body : List Char} {log : List (List Char)}
    {groups groups' : List (List (Nat × List Char))} (h : Grouped e (bodies ++ [body]) log groups)
    (h' : Grouped e (bodies ++ [body]) log groups') :
    ∃ k rs rs', groups.flatten = rs ++ [(k, body)] ∧ groups'.flatten = rs' ++ [(k, body)] := by
  obtain ⟨k, rs, log₁, p, hrs, hlog⟩ := h.last
  obtain ⟨k', rs', log₂, p', hrs', hlog'⟩ := h'.last
  have htext := (List.append_inj' (hlog.symm.trans hlog') rfl).2
  have hk : k = k' := eq_of_append_decimal (by decide) (List.append_cancel_right (List.singleton_inj.mp htext))
  exact ⟨k, rs, rs', hrs, hk ▸ hrs'⟩

/-- Counters that end with `0` after others do not increase. -/
theorem not_increasing {groups : List (List (Nat × List Char))} {rs : List (Nat × List Char)} {body : List Char}
    (h : groups.flatten = rs ++ [(0, body)]) (hrs : rs ≠ []) : ¬ Increasing groups := by
  intro hinc
  rw [Increasing, h, List.map_append, List.map_singleton, List.pairwise_append] at hinc
  obtain ⟨r, hr⟩ := List.exists_mem_of_ne_nil rs hrs
  exact absurd (hinc.2.2 r.1 (List.mem_map_of_mem hr) 0 (List.mem_singleton.mpr rfl)) (Nat.not_lt_zero _)

/-- A run in which the counter wraps at the last record. -/
theorem wrap_not_increasing {A : Allocator} (hA : Serves A) {e : Process} (he : e.Fits) (n : Nat)
    {bodies : List (List Char)} {body : List Char} (hbodies : ∀ b ∈ bodies ++ [body], NulFree b) (hne : bodies ≠ [])
    {c : Nat} (hwrap : (c + bodies.length + 1) % 2 ^ 64 = 0)
    (hfits : ∀ r ∈ numbered c (bodies ++ [body]), FitsEmpty (prefixText e).length (recText r)) (mem : Nat → Pibr)
    (sig : Nat) : ∃ s', signalRun A e (n + 2) (bodies ++ [body]) c mem sig = .ok s' ∧
      ∀ groups, Grouped e (bodies ++ [body]) (logged s'.trace) groups → ¬ Increasing groups := by
  obtain ⟨s', groups', hrun, hg', hflat⟩ := signalRun_grouped hA he n hbodies hfits mem sig
  rw [numbered_snoc, hwrap] at hflat
  refine ⟨s', hrun, fun groups hg => ?_⟩
  obtain ⟨k, rs, rs', hrs, hrs'⟩ := hg.last_counter hg'
  have hk := (List.append_inj' (hflat.symm.trans hrs') rfl).2
  obtain rfl : 0 = k := (Prod.mk.inj (List.singleton_inj.mp hk)).1
  refine not_increasing hrs fun hnil => hne ?_
  have hb := hg.bodies
  rw [hrs, hnil, List.nil_append, List.map_singleton] at hb
  exact (List.append_inj' (show bodies ++ [body] = [] ++ [body] from hb.symm) rfl).1

/-- A process whose name leaves the prefix no room. -/
def longName : Process := ⟨7, List.replicate 600 'x', app.pos, fun h => absurd (List.eq_of_mem_replicate h) (by decide)⟩

/-- The two pages, with old contents that look like a buffer of the process `0`. -/
def usedPages : Allocator where
  memalign _ live :=
    if 4096 ∉ live then some (4096, ⟨packBuffer 4096 0 5 0, fun _ => 'a'⟩)
    else if 8192 ∉ live then some (8192, ⟨packBuffer 8192 0 5 0, fun _ => 'a'⟩)
    else none
  page := by
    intro n live a p h
    split_ifs at h <;> cases h <;> decide
  fresh := by
    intro n live a p h
    split_ifs at h with h1 h2 <;> cases h <;> assumption

/-- Without groups there is no entry. -/
theorem Grouped.nil {e : Process} {log : List (List Char)} {groups : List (List (Nat × List Char))}
    (h : Grouped e [] log groups) : log = [] := by
  have hgroups : groups = [] := by
    rw [List.eq_nil_iff_forall_not_mem]
    intro g hg
    have hflat := List.map_eq_nil_iff.mp h.bodies
    exact h.nonempty g hg (List.flatten_eq_nil_iff.mp hflat g hg)
  rw [h.entries, hgroups, List.map_nil]

/-- **With `2 ^ 64` records, which `blog` accepts, the counters do not increase; and with a name that leaves the prefix
no room, a run without any record logs an entry.** -/
theorem not_always_agree :
    ((∃ t, Blog.blogAll app (List.replicate (2 ^ 64) ['x']) (.init 0 fun _ => nul) = some t) ∧
      ∃ s', signalRun twoPages app 2 (List.replicate (2 ^ 64) ['x']) 0 (fun _ => ⟨0, fun _ => nul⟩) 14 = .ok s' ∧
        ∀ groups, Grouped app (List.replicate (2 ^ 64) ['x']) (logged s'.trace) groups → ¬ Increasing groups) ∧
    ∃ s', signalRun usedPages longName 2 [] 0 (fun _ => ⟨0, fun _ => nul⟩) 14 = .ok s' ∧
      ∀ groups, ¬ Grouped longName [] (logged s'.trace) groups := by
  constructor
  · have hx : ∀ b ∈ List.replicate (2 ^ 64) ['x'], b = ['x'] := fun b hb => List.eq_of_mem_replicate hb
    have hnul : ∀ b ∈ List.replicate (2 ^ 64) ['x'], NulFree b := by
      intro b hb
      rw [hx b hb]
      unfold NulFree nul; decide
    have hroom : ∀ b ∈ List.replicate (2 ^ 64) ['x'],
        (Blog.prefixText app ((0 + 1) % 2 ^ 64)).length + b.length < noBatchBufferSize - 2 := by
      intro b hb
      rw [hx b hb]
      decide
    refine ⟨Blog.blogAll_accepts hnul (by decide) hroom _, ?_⟩
    have hsplit : List.replicate (2 ^ 64) ['x'] = List.replicate (2 ^ 64 - 1) ['x'] ++ [['x']] :=
      List.replicate_succ' (n := 2 ^ 64 - 1) (a := ['x'])
    rw [hsplit] at hnul hroom ⊢
    refine wrap_not_increasing twoPages_serves app_fits 0 hnul ?_ ?_ ?_ _ 14
    · exact List.ne_nil_of_length_pos (by rw [List.length_replicate]; decide)
    · rw [List.length_replicate]; decide
    · exact fun r hr => fitsEmpty_of_room (numbered_mem hr).1 (hroom r.2 (numbered_mem hr).2)
  · have hlogged : (signalRun usedPages longName 2 [] 0 (fun _ => ⟨0, fun _ => nul⟩) 14).map (fun s => logged s.trace)
        = .ok [['a', 'a', 'a', 'a', '\x7d', '\x7d']] := by decide +kernel
    cases hs : signalRun usedPages longName 2 [] 0 (fun _ => ⟨0, fun _ => nul⟩) 14 with
    | error err => rw [hs] at hlogged; cases hlogged
    | ok s' =>
      rw [hs] at hlogged
      refine ⟨s', rfl, fun groups hg => ?_⟩
      have hlog : logged s'.trace = [['a', 'a', 'a', 'a', '\x7d', '\x7d']] := Except.ok.inj hlogged
      have hnil := hg.nil
      rw [hlog] at hnil
      exact absurd hnil (by decide)

end Cosmost.Bblog
