import OsExercises.Scheduler.Statistics

/-!
# Reports and messages

A failed `mq_receive` is reported with `perror` and the pass goes on with the buffer as it is. So there is
one report for each message only if no `mq_receive` fails before `shutdown` is seen (`one_report_iff`).
-/

namespace OsExercises.Scheduler

variable {sleeps : Nat → Bool} {msgBuf : Bytes} {p : Pass} {passes : List Pass} {r : Report × Bytes}
  {log : List Entry}

/-- Every message is reported, and a failed `mq_receive` neither leads to a report nor to a token. -/
def OneReportEach (msgBuf : Bytes) (passes : List Pass) : Prop :=
  ∃ log, main msgBuf passes = some log ∧ ∀ e ∈ log,
    e.report.isSome = e.pass.received.isSome ∧
      (e.pass.received = none → strtok? SPACE e.msgBuf = some none)

/-- No pass that is made lacks a message or is left early. -/
inductive Delivered : Bytes → List Pass → Prop
  | nil (msgBuf : Bytes) : Delivered msgBuf []
  | cons {msgBuf message str rest : Bytes} {vals : List Int} {p : Pass} {passes : List Pass}
      (received : p.received = some message)
      (counted : Counted p.sleeps (overwrite msgBuf message) str rest vals)
      (tail : p.shutdown = false → Delivered (terminated SPACE false str ++ NUL :: rest) passes) :
      Delivered msgBuf (p :: passes)

/-! ### A pass -/

theorem receive_of_received {message : Bytes} (h : p.received = some message) :
    p.receive msgBuf = overwrite msgBuf message := by
  rw [Pass.receive, h]

/-- A pass without a token has nothing to sleep for. -/
theorem process_ne_sleep (h : strtok? SPACE msgBuf = some none) :
    process sleeps msgBuf ≠ .error .sleep := by
  intro hsleep
  rw [process] at hsleep
  split at hsleep
  · cases hsleep
  · rw [tokenLoop, h] at hsleep
    cases hsleep

/-! ### The run -/

theorem OneReportEach.delivered (h : OneReportEach msgBuf passes) : Delivered msgBuf passes := by
  induction passes generalizing msgBuf with
  | nil => exact .nil msgBuf
  | cons p passes ih =>
    obtain ⟨log, hmain, hlog⟩ := h
    cases hprocess : process p.sleeps (p.receive msgBuf) with
    | error e =>
      cases e with
      | undefined =>
        rw [main_undefined hprocess] at hmain
        cases hmain
      | sleep =>
        rw [main_sleep hprocess] at hmain
        obtain rfl := Option.some.inj hmain
        obtain ⟨hreport, htoken⟩ := hlog _ (List.mem_singleton_self _)
        have hreceived : p.received = none := by simpa using hreport.symm
        exact absurd hprocess (process_ne_sleep (htoken hreceived))
    | ok r =>
      rw [main_ok hprocess] at hmain
      have hhead : ⟨p, p.receive msgBuf, some r.1⟩ ∈ log := by
        split_ifs at hmain
        · obtain rfl := Option.some.inj hmain
          exact List.mem_singleton_self _
        · obtain ⟨log', -, rfl⟩ := Option.map_eq_some_iff.mp hmain
          exact List.mem_cons_self
      have hreceived : p.received.isSome = true := (hlog _ hhead).1.symm
      obtain ⟨message, hmessage⟩ := Option.isSome_iff_exists.mp hreceived
      rw [receive_of_received hmessage] at hprocess
      obtain ⟨str, rest, vals, hcounted, rfl⟩ := process_eq_ok hprocess
      refine .cons hmessage hcounted fun hshutdown => ih ?_
      rw [if_neg (by rw [hshutdown]; exact Bool.false_ne_true)] at hmain
      obtain ⟨log', htail, rfl⟩ := Option.map_eq_some_iff.mp hmain
      exact ⟨log', htail, (List.forall_mem_cons.mp hlog).2⟩

theorem Delivered.oneReportEach (h : Delivered msgBuf passes) : OneReportEach msgBuf passes := by
  induction h with
  | nil msgBuf => exact ⟨[], rfl, List.forall_mem_nil _⟩
  | @cons msgBuf message str rest vals p passes received counted _ ih =>
    have hprocess : process p.sleeps (p.receive msgBuf) =
        .ok (⟨statsOf vals, tokenCount str⟩, terminated SPACE false str ++ NUL :: rest) := by
      rw [receive_of_received received]
      exact counted.process
    unfold OneReportEach
    rw [main_ok hprocess]
    have hreported : ∀ report : Report, (some report).isSome = p.received.isSome ∧
        (p.received = none → strtok? SPACE (p.receive msgBuf) = some none) := by
      simp [received]
    cases hshutdown : p.shutdown with
    | true =>
      refine ⟨_, if_pos rfl, ?_⟩
      exact List.forall_mem_singleton.mpr (hreported _)
    | false =>
      obtain ⟨log, hmain, hlog⟩ := ih hshutdown
      refine ⟨_, (if_neg Bool.false_ne_true).trans (Option.map_eq_some_iff.mpr ⟨log, hmain, rfl⟩), ?_⟩
      exact List.forall_mem_cons.mpr ⟨hreported _, hlog⟩

theorem one_report_iff : OneReportEach msgBuf passes ↔ Delivered msgBuf passes :=
  ⟨OneReportEach.delivered, Delivered.oneReportEach⟩

/-- `SIGINT` during the second `mq_receive`: the statistics of the message 7 are printed once more. -/
theorem interrupted_receive_reports_again :
    (main (List.replicate MSG_SIZE NUL)
      [⟨some [55], fun _ => true, false⟩, ⟨none, fun _ => true, true⟩]).map (List.map Entry.report) =
        some [some ⟨⟨7, 7, 7, 1⟩, 1⟩, some ⟨⟨7, 7, 7, 1⟩, 1⟩] ∧
      ¬ OneReportEach (List.replicate MSG_SIZE NUL)
        [⟨some [55], fun _ => true, false⟩, ⟨none, fun _ => true, true⟩] := by
  refine ⟨by decide +kernel, fun h => ?_⟩
  rcases h.delivered with _ | ⟨_, _, tail⟩
  rcases tail rfl with _ | ⟨received, _, _⟩
  cases received

end OsExercises.Scheduler
