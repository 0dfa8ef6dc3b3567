import Mathlib.Logic.Function.Basic
import Tangent.Model.Logger

/-!
# Messages of several loggers

A message is a call of `clog_log`, or it is started, printed in parts and ended.  A part is either
printed with `clog_partial_log` or to the `fp` of the logger, from where `stdio` writes it when it
likes to.  The loggers share `stdout`, and their calls may come in any order.  Of each logger,
`stdout` gets the messages it has enabled, with their parts in order, and nothing else.
-/

namespace Tangent.Logger

/-! ### Calls of one logger -/

/-- A call of a logger. -/
inductive LogCall where
  | startLog (level : ℤ) (leader : Bytes)
  | partialLog (text : Bytes)
  | print (text : Bytes) (k : ℕ)
  | endLog
  | log (level : ℤ) (leader text : Bytes)

/-- The logger after a call. -/
def logCall (s : LogState) : LogCall → LogState
  | .startLog level leader => clogStartLog s level leader
  | .partialLog text => clogPartialLog s text
  | .print text k => fprintf s text k
  | .endLog => clogEndLog s
  | .log level leader text => clogLog s level leader text

/-- A call appends to `stdout`, and does so whatever has been written before. -/
theorem logCall_out (ctx : LoggerCtx) (out : Bytes) (call : LogCall) :
  logCall ⟨ctx, out⟩ call =
    ⟨(logCall ⟨ctx, []⟩ call).ctx, out ++ (logCall ⟨ctx, []⟩ call).out⟩
  := by
  cases call with
  | startLog level leader =>
      simp only [logCall, clogStartLog]
      split <;> simp
  | partialLog text =>
      cases h : ctx.logPartial <;> simp [logCall, clogPartialLog, fflush, loggerCallWrite, h]
  | print text k =>
      cases h : ctx.logPartial <;> simp [logCall, fprintf, loggerCallWrite, h]
  | endLog =>
      cases h : ctx.logPartial <;> simp [logCall, clogEndLog, fflush, loggerCallWrite, h]
  | log level leader text =>
      by_cases h : ctx.minLevel ≤ level <;>
        simp [logCall, clogLog, vlog, clogStartLog, clogEndLog, fflush, loggerCallWrite, h]

theorem foldl_logCall_out (ctx : LoggerCtx) (out : Bytes) (calls : List LogCall) :
  calls.foldl logCall ⟨ctx, out⟩ =
    ⟨(calls.foldl logCall ⟨ctx, []⟩).ctx, out ++ (calls.foldl logCall ⟨ctx, []⟩).out⟩
  := by
  induction calls generalizing ctx out with
  | nil => simp
  | cons call calls ih =>
      rw [List.foldl_cons, logCall_out, ih, List.foldl_cons,
        ih (logCall ⟨ctx, []⟩ call).ctx (logCall ⟨ctx, []⟩ call).out, List.append_assoc]

/-! ### Messages -/

/-- What is done between the start and the end of a message. -/
inductive LogItem where
  | partialLog (text : Bytes)
  | print (text : Bytes) (k : ℕ)
  | log (level : ℤ) (leader text : Bytes)

/-- The call that does it. -/
def LogItem.call : LogItem → LogCall
  | .partialLog text => .partialLog text
  | .print text k => .print text k
  | .log level leader text => .log level leader text

/-- What it adds to the message. -/
def LogItem.text : LogItem → Bytes
  | .partialLog text => text
  | .print text _ => text
  | .log _ _ _ => []

/-- A message: printed at once, or in parts. -/
inductive LogMessage where
  | whole (level : ℤ) (leader text : Bytes)
  | parts (level : ℤ) (leader : Bytes) (items : List LogItem)

/-- The calls that log a message. -/
def LogMessage.calls : LogMessage → List LogCall
  | .whole level leader text => [.log level leader text]
  | .parts level leader items => .startLog level leader :: (items.map LogItem.call ++ [.endLog])

/-- The line a message should become. -/
def LogMessage.line (minLevel : ℤ) : LogMessage → Bytes
  | .whole level leader text =>
      if minLevel ≤ level then leader ++ text ++ endFileMsg else []
  | .parts level leader items =>
      if minLevel ≤ level then leader ++ items.flatMap LogItem.text ++ endFileMsg else []

/-- No message is logged inside the message, unless its level is too low. -/
def LogMessage.Flat (minLevel : ℤ) : LogMessage → Prop
  | .whole _ _ _ => True
  | .parts _ _ items => ∀ level leader text, .log level leader text ∈ items → level < minLevel

/-- Between two messages nothing is held back. -/
structure Idle (ctx : LoggerCtx) : Prop where
  fp : ctx.fp = []
  logPartial : ctx.logPartial = false

/-- A message whose level is too low does not end the one it is logged in. -/
theorem clogLog_of_lt {s : LogState} {level : ℤ} (h : level < s.ctx.minLevel)
    (leader text : Bytes) :
  clogLog s level leader text = s
  := by
  rw [clogLog, if_neg (not_le.mpr h)]

/-- While a message is open, what has been written and what `stdio` holds is what has been printed
so far. -/
theorem foldl_items_open (items : List LogItem) (ctx : LoggerCtx) (out : Bytes)
    (hopen : ctx.logPartial = true)
    (hflat : ∀ level leader text, .log level leader text ∈ items → level < ctx.minLevel) :
  ∃ held written, (items.map LogItem.call).foldl logCall ⟨ctx, out⟩ =
      ⟨{ ctx with fp := held }, written⟩ ∧
    written ++ held = out ++ ctx.fp ++ items.flatMap LogItem.text
  := by
  induction items generalizing ctx out with
  | nil => exact ⟨ctx.fp, out, rfl, by simp⟩
  | cons item items ih =>
      have hrest := fun level leader text hmem =>
        hflat level leader text (List.mem_cons_of_mem _ hmem)
      -- one item keeps the flag, and moves bytes from `fp` to `stdout` only
      have hitem : ∃ held written,
          logCall ⟨ctx, out⟩ item.call = ⟨{ ctx with fp := held }, written⟩ ∧
          written ++ held = out ++ ctx.fp ++ item.text := by
        cases item with
        | partialLog text =>
            refine ⟨[], out ++ ctx.fp ++ text, ?_, by simp [LogItem.text]⟩
            simp [LogItem.call, logCall, clogPartialLog, fflush, loggerCallWrite, hopen]
        | print text k =>
            refine ⟨(ctx.fp ++ text).drop k, out ++ (ctx.fp ++ text).take k, ?_, ?_⟩
            · simp [LogItem.call, logCall, fprintf, loggerCallWrite, hopen]
            · rw [List.append_assoc, List.take_append_drop, ← List.append_assoc, LogItem.text]
        | log level leader text =>
            refine ⟨ctx.fp, out, ?_, by simp [LogItem.text]⟩
            exact clogLog_of_lt (hflat level leader text List.mem_cons_self) leader text
      obtain ⟨held, written, hcall, hwritten⟩ := hitem
      obtain ⟨held', written', hfold, hwritten'⟩ := ih { ctx with fp := held } written hopen
        hrest
      refine ⟨held', written', ?_, ?_⟩
      · rw [List.map_cons, List.foldl_cons, hcall, hfold]
      · rw [hwritten', hwritten, List.flatMap_cons, ← List.append_assoc]

/-- Between messages nothing gets to `stdout`. -/
theorem foldl_items_closed (items : List LogItem) (ctx : LoggerCtx) (out : Bytes)
    (hclosed : ctx.logPartial = false)
    (hflat : ∀ level leader text, .log level leader text ∈ items → level < ctx.minLevel) :
  ∃ held, (items.map LogItem.call).foldl logCall ⟨ctx, out⟩ = ⟨{ ctx with fp := held }, out⟩
  := by
  induction items generalizing ctx with
  | nil => exact ⟨ctx.fp, rfl⟩
  | cons item items ih =>
      have hrest := fun level leader text hmem =>
        hflat level leader text (List.mem_cons_of_mem _ hmem)
      have hitem : ∃ held, logCall ⟨ctx, out⟩ item.call = ⟨{ ctx with fp := held }, out⟩ := by
        cases item with
        | partialLog text =>
            refine ⟨ctx.fp, ?_⟩
            rw [LogItem.call, logCall, clogPartialLog, if_neg (by simp [hclosed])]
        | print text k =>
            refine ⟨(ctx.fp ++ text).drop k, ?_⟩
            simp [LogItem.call, logCall, fprintf, loggerCallWrite, hclosed]
        | log level leader text =>
            refine ⟨ctx.fp, ?_⟩
            exact clogLog_of_lt (hflat level leader text List.mem_cons_self) leader text
      obtain ⟨held, hcall⟩ := hitem
      obtain ⟨held', hfold⟩ := ih { ctx with fp := held } hclosed hrest
      refine ⟨held', ?_⟩
      rw [List.map_cons, List.foldl_cons, hcall, hfold]

/-- A message leaves the logger as it was, and writes its line. -/
theorem foldl_message {ctx : LoggerCtx} {out : Bytes} (h : Idle ctx) {m : LogMessage}
    (hflat : m.Flat ctx.minLevel) :
  m.calls.foldl logCall ⟨ctx, out⟩ = ⟨ctx, out ++ m.line ctx.minLevel⟩
  := by
  obtain ⟨name, minLevel, fp, logPartial⟩ := ctx
  obtain ⟨hfp, hpartial⟩ := h
  dsimp only at hfp hpartial hflat ⊢
  subst hfp hpartial
  cases m with
  | whole level leader text =>
      by_cases hlevel : minLevel ≤ level <;>
        simp [LogMessage.calls, LogMessage.line, logCall, clogLog, vlog, clogStartLog, clogEndLog,
          fflush, loggerCallWrite, hlevel]
  | parts level leader items =>
      simp only [LogMessage.calls, LogMessage.line, List.foldl_cons, List.foldl_append,
        List.foldl_nil, logCall, clogStartLog]
      by_cases hlevel : minLevel ≤ level
      · obtain ⟨held, written, hfold, hwritten⟩ := foldl_items_open items
          ⟨name, minLevel, [], true⟩ (out ++ leader) rfl hflat
        simp only [hlevel, if_true, hfold, clogEndLog, fflush, loggerCallWrite, hwritten]
        simp
      · obtain ⟨held, hfold⟩ := foldl_items_closed items
          ⟨name, minLevel, [], false⟩ out rfl hflat
        simp [hlevel, hfold, clogEndLog, fflush, loggerCallWrite]

theorem foldl_messages {ctx : LoggerCtx} {out : Bytes} (h : Idle ctx) {ms : List LogMessage}
    (hflat : ∀ m ∈ ms, m.Flat ctx.minLevel) :
  (ms.flatMap LogMessage.calls).foldl logCall ⟨ctx, out⟩ =
    ⟨ctx, out ++ ms.flatMap (LogMessage.line ctx.minLevel)⟩
  := by
  induction ms generalizing out with
  | nil => simp
  | cons m ms ih =>
      obtain ⟨hm, hms⟩ := List.forall_mem_cons.mp hflat
      rw [List.flatMap_cons, List.foldl_append, foldl_message h hm, ih hms, List.flatMap_cons,
        List.append_assoc]

/-! ### Several loggers -/

section Console

variable {ι : Type*} [DecidableEq ι]

/-- The loggers, and what they have written to `stdout`. -/
structure Console (ι : Type*) where
  ctxs : ι → LoggerCtx
  out : Bytes

/-- The loggers after a call of one of them. -/
def Console.call (s : Console ι) (e : ι × LogCall) : Console ι :=
  let t := logCall ⟨s.ctxs e.1, s.out⟩ e.2
  ⟨Function.update s.ctxs e.1 t.ctx, t.out⟩

theorem Console.call_ctxs_self (s : Console ι) (e : ι × LogCall) :
  (s.call e).ctxs e.1 = (logCall ⟨s.ctxs e.1, []⟩ e.2).ctx
  := by
  rw [Console.call, logCall_out]
  exact Function.update_self ..

theorem Console.call_ctxs_of_ne (s : Console ι) {e : ι × LogCall} {i : ι} (h : i ≠ e.1) :
  (s.call e).ctxs i = s.ctxs i
  := Function.update_of_ne h ..

theorem Console.call_out (s : Console ι) (e : ι × LogCall) :
  (s.call e).out = s.out ++ (logCall ⟨s.ctxs e.1, []⟩ e.2).out
  := by
  rw [Console.call, logCall_out]

/-- What belongs to one logger. -/
def ofLogger {α : Type*} (i : ι) (es : List (ι × α)) : List α :=
  (es.filter fun e => e.1 = i).map Prod.snd

theorem ofLogger_cons {α : Type*} (i : ι) (e : ι × α) (es : List (ι × α)) :
  ofLogger i (e :: es) = if e.1 = i then e.2 :: ofLogger i es else ofLogger i es
  := by
  rw [ofLogger, List.filter_cons]
  split <;> simp_all [ofLogger]

/-- After calls in any order, each logger is as after its own calls, and has written what it
would have written alone. -/
theorem foldl_call (s : Console ι) (cs : List (ι × LogCall)) :
  ∃ parts : List (ι × Bytes), parts.map Prod.fst = cs.map Prod.fst ∧
    (cs.foldl Console.call s).out = s.out ++ parts.flatMap Prod.snd ∧
    ∀ i, (ofLogger i cs).foldl logCall ⟨s.ctxs i, []⟩ =
      ⟨(cs.foldl Console.call s).ctxs i, (ofLogger i parts).flatten⟩
  := by
  induction cs generalizing s with
  | nil => exact ⟨[], rfl, by simp, fun i => rfl⟩
  | cons e cs ih =>
      obtain ⟨parts, hfst, hout, hlogger⟩ := ih (s.call e)
      refine ⟨(e.1, (logCall ⟨s.ctxs e.1, []⟩ e.2).out) :: parts, ?_, ?_, ?_⟩
      · rw [List.map_cons, List.map_cons, hfst]
      · rw [List.foldl_cons, hout, Console.call_out, List.flatMap_cons, List.append_assoc]
      · intro i
        have hi := hlogger i
        rw [List.foldl_cons, ofLogger_cons, ofLogger_cons]
        by_cases heq : e.1 = i
        · subst heq
          rw [Console.call_ctxs_self] at hi
          rw [if_pos rfl, if_pos rfl, List.foldl_cons, foldl_logCall_out, hi, List.flatten_cons]
        · rw [Console.call_ctxs_of_ne s (Ne.symm heq)] at hi
          rw [if_neg heq, if_neg heq, hi]

/-- The lines of the messages get to `stdout` whatever the order of the calls and whenever `stdio`
writes: the output is one part for each call, in the order of the calls, and the parts of a logger
make up the lines of its messages.  Afterwards no logger holds anything back. -/
theorem messages_kept_apart (s : Console ι) (hidle : ∀ i, Idle (s.ctxs i))
    (messages : ι → List LogMessage)
    (hflat : ∀ i, ∀ m ∈ messages i, m.Flat (s.ctxs i).minLevel) (cs : List (ι × LogCall))
    (hcs : ∀ i, ofLogger i cs = (messages i).flatMap LogMessage.calls) :
  (cs.foldl Console.call s).ctxs = s.ctxs ∧
    ∃ parts : List (ι × Bytes), parts.map Prod.fst = cs.map Prod.fst ∧
      (cs.foldl Console.call s).out = s.out ++ parts.flatMap Prod.snd ∧
      ∀ i, (ofLogger i parts).flatten =
        (messages i).flatMap (LogMessage.line (s.ctxs i).minLevel)
  := by
  obtain ⟨parts, hfst, hout, hlogger⟩ := foldl_call s cs
  have halone : ∀ i, (⟨s.ctxs i, (messages i).flatMap (LogMessage.line (s.ctxs i).minLevel)⟩ :
      LogState) = ⟨(cs.foldl Console.call s).ctxs i, (ofLogger i parts).flatten⟩ := by
    intro i
    rw [← hlogger i, hcs i, foldl_messages (hidle i) (hflat i), List.nil_append]
  refine ⟨?_, parts, hfst, hout, ?_⟩
  · funext i
    exact (congrArg LogState.ctx (halone i)).symm
  · intro i
    exact (congrArg LogState.out (halone i)).symm

end Console

/-! ### A sample -/

/-- Two loggers for messages of the levels from 1 on. -/
def sampleConsole : Console Bool :=
  ⟨fun _ => ⟨[], 1, [], false⟩, []⟩

/-- One logger logs a message in parts, the other one whole messages. -/
def sampleMessages : Bool → List LogMessage
  | true => [.parts 2 [1] [.print [2] 0, .log 0 [9] [9], .partialLog [3], .print [4] 1]]
  | false => [.whole 1 [5] [6], .whole 0 [7] [8]]

/-- The calls of the loggers by turns. -/
def sampleCalls : List (Bool × LogCall) :=
  [(true, .startLog 2 [1]), (true, .print [2] 0), (false, .log 1 [5] [6]),
    (true, .log 0 [9] [9]), (true, .partialLog [3]), (false, .log 0 [7] [8]),
    (true, .print [4] 1), (true, .endLog)]

theorem messages_kept_apart_sample :
  (sampleCalls.foldl Console.call sampleConsole).ctxs = sampleConsole.ctxs ∧
    ∃ parts : List (Bool × Bytes), parts.map Prod.fst = sampleCalls.map Prod.fst ∧
      (sampleCalls.foldl Console.call sampleConsole).out = [] ++ parts.flatMap Prod.snd ∧
      ∀ i, (ofLogger i parts).flatten = (sampleMessages i).flatMap (LogMessage.line 1)
  := by
  apply messages_kept_apart sampleConsole
  · intro i
    exact ⟨rfl, rfl⟩
  · intro i m hm
    cases i with
    | false =>
        rcases List.mem_cons.mp hm with rfl | hm
        · trivial
        · rw [List.mem_singleton.mp hm]
          trivial
    | true =>
        rw [List.mem_singleton.mp hm]
        intro level leader text hmem
        simp only [List.mem_cons, reduceCtorEq, LogItem.log.injEq, List.not_mem_nil, or_false,
          false_or] at hmem
        rw [hmem.1]
        decide
  · intro i
    cases i <;> rfl

end Tangent.Logger
