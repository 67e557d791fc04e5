-- SUMMARY: Log queries over a range of blocks: what they answer, and what they refuse.
import Ethertest.Filters.Logs
import Ethertest.Reference

/-!
# Log queries

A query resolves its bounds to block numbers, checks the width of the range and collects the
matching logs block by block. Numbers are 64-bit words and the loop ends by an equality, so it
never steps past the last number.
-/

namespace Ethertest

namespace Filters

/-! ## Bounds -/

def earliestBlockNumber : Int := -5

def safeBlockNumber : Int := -4

def finalizedBlockNumber : Int := -3

def latestBlockNumber : Int := -2

def pendingBlockNumber : Int := -1

/-- The block number of a tag. Safe and finalized blocks always exist. -/
def resolveTag (E : Env) (l : Ledger) (number : Int) (head : UInt64) : Except RpcError UInt64 :=
  if number = latestBlockNumber then .ok head
  else if number = earliestBlockNumber then .ok 0
  else if number = safeBlockNumber then .ok (UInt64.ofNat (l.resolveSyntheticFinality E l.slot).safe.number)
  else if number = finalizedBlockNumber then .ok (UInt64.ofNat (l.resolveSyntheticFinality E l.slot).finalized.number)
  else if number = pendingBlockNumber then .error (.invalidInput "pending logs are not supported")
  else if number < 0 then .error (.invalidInput "unsupported log range block tag")
  else .ok (UInt64.ofNat number.toNat)

def resolveLogBlockNumber (E : Env) (l : Ledger) (value : Option Int) (fallback : Int) (head : UInt64) :
    Except RpcError UInt64 :=
  match value with
  | none => resolveTag E l fallback head
  | some value =>
    if 0 ≤ value then
      if 2 ^ 64 ≤ value then .error (.invalidInput "log range block number exceeds uint64")
      else .ok (UInt64.ofNat value.toNat)
    else if value < -2 ^ 63 then .error (.invalidInput "unsupported log range block tag")
    else resolveTag E l value head

/-! ## The query -/

/-- Counting up comes closer to a number that it has not reached, around the end if need be. -/
theorem toNat_sub_add_one_lt {last number : UInt64} (h : number ≠ last) :
    (last - (number + 1)).toNat < (last - number).toNat := by
  have hne : number.toNat ≠ last.toNat := fun heq => h (UInt64.toNat_inj.mp heq)
  have hlast := last.toNat_lt
  have hnumber := number.toNat_lt
  simp only [UInt64.toNat_sub, UInt64.toNat_add, UInt64.reduceToNat]
  omega

/-- The matching logs of a block; none if there is no block. -/
def matchingLogs (E : Env) (l : Ledger) (query : FilterQuery) (block : Option Block) : List LogEntry :=
  block.elim [] fun b => filterBlockLogs (entriesByHash l.db (E.hash b) b) query

/-- The loop of `logs` from a number on. -/
def collectLogs (E : Env) (l : Ledger) (limits : LogLimits) (marshal : LogEntry → Bytes) (query : FilterQuery)
    (last number : UInt64) (result : List LogEntry) (encodedSize : Nat) (ctx : Ctx) :
    Except RpcError (List LogEntry × Ctx) := do
  let ctx ← checkCtx ctx
  let (result, encodedSize) ← appendLimitedLogs limits marshal result encodedSize
    (matchingLogs E l query (l.db.blockByNumber number.toNat))
  if number = last then .ok (result, ctx)
  else collectLogs E l limits marshal query last (number + 1) result encodedSize ctx
termination_by (last - number).toNat
decreasing_by
  exact toNat_sub_add_one_lt ‹_›

/-- The first number of a range: its resolved bound, or a later number to start from. -/
def firstNumber (resolved : UInt64) : Option UInt64 → UInt64
  | some fromOverride => if resolved < fromOverride then fromOverride else resolved
  | none => resolved

/-- The last number of a range, cut at the head. -/
def lastNumber (resolved head : UInt64) : UInt64 := if head < resolved then head else resolved

/-- `logs` once the bounds are resolved. -/
def answerRange (E : Env) (l : Ledger) (limits : LogLimits) (marshal : LogEntry → Bytes) (query : FilterQuery)
    (first last head : UInt64) (ctx : Ctx) : Except RpcError (List LogEntry × Ctx) := do
  failIf (last < first) (.invalidInput "invalid block range: fromBlock exceeds toBlock")
  let last := lastNumber last head
  if head < first then .ok ([], ctx)
  else
    let width := last - first
    failIf (limits.maxLogBlocks ≤ width)
      (resourceLimit "log block range" (min (width.toNat + 1) maxUint64) limits.maxLogBlocks.toNat)
    collectLogs E l limits marshal query last first [] 2 ctx

/-- `logs` for a query without a block hash. -/
def rangeLogs (E : Env) (l : Ledger) (limits : LogLimits) (marshal : LogEntry → Bytes) (query : FilterQuery)
    (fromOverride : Option UInt64) (ctx : Ctx) : Except RpcError (List LogEntry × Ctx) := do
  let headBlock ← l.head.mapError RpcError.error
  let head := UInt64.ofNat headBlock.number
  let first ← resolveLogBlockNumber E l query.fromBlock latestBlockNumber head
  let first := firstNumber first fromOverride
  let last ← resolveLogBlockNumber E l query.toBlock latestBlockNumber head
  answerRange E l limits marshal query first last head ctx

def logs (E : Env) (l : Ledger) (limits : LogLimits) (marshal : LogEntry → Bytes) (query : FilterQuery)
    (fromOverride : Option UInt64) (ctx : Ctx) : Except RpcError (List LogEntry × Ctx) := do
  failIf (limits.maxResponseBytes < 2) (resourceLimit "log response bytes" 2 limits.maxResponseBytes)
  match query.blockHash with
  | some hash => do
    let ctx ← checkCtx ctx
    let (result, _) ← appendLimitedLogs limits marshal [] 2 (matchingLogs E l query (l.db.blockByHash hash))
    .ok (result, ctx)
  | none => rangeLogs E l limits marshal query fromOverride ctx

/-! ## What the loop collects -/

variable {E : Env} {l : Ledger} {limits : LogLimits} {marshal : LogEntry → Bytes} {query : FilterQuery}

/-- The matching logs of the canonical blocks with these numbers. -/
def canonicalLogs (E : Env) (l : Ledger) (query : FilterQuery) (numbers : List Nat) : List LogEntry :=
  numbers.flatMap fun number =>
    ((l.db.blockByNumber number).elim [] fun b => entriesByHash l.db (E.hash b) b).filter
      fun entry => query.Matches entry.log

theorem canonicalLogs_cons (number : Nat) (numbers : List Nat) :
    canonicalLogs E l query (number :: numbers) =
      matchingLogs E l query (l.db.blockByNumber number) ++ canonicalLogs E l query numbers := by
  rw [canonicalLogs, List.flatMap_cons, matchingLogs]
  cases l.db.blockByNumber number with
  | none => rfl
  | some b => rw [Option.elim_some, Option.elim_some, filterBlockLogs_eq]; rfl

/-- A check of the context passes, or the context is cancelled. -/
theorem checkCtx_cases (ctx : Ctx) :
    (∃ ctx', checkCtx ctx = .ok ctx' ∧ (ctx = none → ctx' = none)) ∨
      checkCtx ctx = .error (.error .canceled) ∧ ctx ≠ none := by
  match ctx with
  | none => exact .inl ⟨none, rfl, fun _ => rfl⟩
  | some 0 => exact .inr ⟨rfl, by simp⟩
  | some (k + 1) => exact .inl ⟨some k, rfl, by simp⟩

/-- How a query with these matching logs ends: with all of them, with an exceeded limit, or
because the context is cancelled. -/
inductive Answers (limits : LogLimits) (marshal : LogEntry → Bytes) (full : List LogEntry) (ctx : Ctx) :
    Except RpcError (List LogEntry × Ctx) → Prop where
  | all {ctx' : Ctx} (hadmits : limits.Admits marshal full) : Answers limits marshal full ctx (.ok (full, ctx'))
  | refused {resource : String} {requested limit : Nat} (hadmits : ¬ limits.Admits marshal full) :
      Answers limits marshal full ctx (.error (resourceLimit resource requested limit))
  | canceled (hctx : ctx ≠ none) : Answers limits marshal full ctx (.error (.error .canceled))

theorem Answers.of_ctx {full : List LogEntry} {ctx ctx' : Ctx} {out : Except RpcError (List LogEntry × Ctx)}
    (h : Answers limits marshal full ctx' out) (hctx : ctx = none → ctx' = none) :
    Answers limits marshal full ctx out := by
  cases h with
  | all hadmits => exact .all hadmits
  | refused hadmits => exact .refused hadmits
  | canceled hcanceled => exact .canceled fun hnone => hcanceled (hctx hnone)

/-- The loop answers with the logs from its number to the last one. -/
theorem collectLogs_answers {last number : UInt64} {result : List LogEntry} {ctx : Ctx}
    (hle : number.toNat ≤ last.toNat) (hresult : limits.Admits marshal result) :
    Answers limits marshal
      (result ++ canonicalLogs E l query (List.range' number.toNat (last.toNat + 1 - number.toNat))) ctx
      (collectLogs E l limits marshal query last number result (encodeArray marshal result).length ctx) := by
  induction hn : last.toNat - number.toNat using Nat.strong_induction_on generalizing number result ctx with
  | _ n ih =>
    subst hn
    have hrange : List.range' number.toNat (last.toNat + 1 - number.toNat) =
        number.toNat :: List.range' (number.toNat + 1) (last.toNat - number.toNat) := by
      rw [Nat.succ_sub hle, List.range'_succ]
    rw [hrange, canonicalLogs_cons, ← List.append_assoc, collectLogs]
    obtain ⟨ctx', hctx, hbackground⟩ | ⟨hctx, hcanceled⟩ := checkCtx_cases ctx
    · rw [hctx, Except.ok_do]
      cases happend : appendLimitedLogs limits marshal result (encodeArray marshal result).length
          (matchingLogs E l query (l.db.blockByNumber number.toNat)) with
      | error err =>
        obtain ⟨resource, requested, limit, rfl⟩ := appendLimitedLogs_error happend
        refine .refused fun hadmits => ?_
        rw [(appendLimitedLogs_ok_iff hresult).mpr ⟨hadmits.of_append, rfl⟩] at happend
        cases happend
      | ok out =>
        obtain ⟨hadmits, rfl⟩ := (appendLimitedLogs_ok_iff hresult).mp happend
        rw [Except.ok_do]
        by_cases hlast : number = last
        · subst hlast
          rw [Nat.sub_self, List.range'_zero, canonicalLogs, List.flatMap_nil, List.append_nil]
          simpa using Answers.all hadmits
        · have hlt : number.toNat < last.toNat :=
            lt_of_le_of_ne hle fun heq => hlast (UInt64.toNat_inj.mp heq)
          have hnext : (number + 1).toNat = number.toNat + 1 := by
            have hlast := last.toNat_lt
            rw [UInt64.toNat_add, UInt64.toNat_one]
            exact Nat.mod_eq_of_lt (by omega)
          have hrest := @ih (last.toNat - (number + 1).toNat) (by omega) (number + 1) _ ctx' (by omega) hadmits rfl
          rw [hnext, Nat.succ_sub_succ] at hrest
          simpa [hlast] using hrest.of_ctx hbackground
    · rw [hctx]
      exact .canceled hcanceled

/-! ## What a query answers -/

variable {fromOverride : Option UInt64} {ctx : Ctx} {headBlock : Block} {from₀ last : UInt64}

/-- The empty response is within the limits as soon as its brackets are. -/
theorem admits_nil (h : 2 ≤ limits.maxResponseBytes) : limits.Admits marshal [] :=
  ⟨Nat.zero_le _, h⟩

/-- The matching logs of the canonical blocks of a range, up to the head. -/
def logsBetween (E : Env) (l : Ledger) (query : FilterQuery) (first last head : UInt64) : List LogEntry :=
  canonicalLogs E l query (List.range' first.toNat (min last.toNat head.toNat + 1 - first.toNat))

/-- A query with resolved bounds, from the check of its range on. -/
theorem logs_eq (hbytes : 2 ≤ limits.maxResponseBytes) (hquery : query.blockHash = none)
    (hhead : l.db.currentBlock = some headBlock)
    (hfrom : resolveLogBlockNumber E l query.fromBlock latestBlockNumber (UInt64.ofNat headBlock.number) = .ok from₀)
    (hto : resolveLogBlockNumber E l query.toBlock latestBlockNumber (UInt64.ofNat headBlock.number) = .ok last) :
    logs E l limits marshal query fromOverride ctx =
      answerRange E l limits marshal query (firstNumber from₀ fromOverride) last
        (UInt64.ofNat headBlock.number) ctx := by
  have hsmall : ¬ limits.maxResponseBytes < 2 := not_lt.mpr hbytes
  simp only [logs, hquery, rangeLogs, Ledger.head, hhead, failIf, hsmall, if_false, Except.ok_do, orFail,
    Option.elim_some, Except.mapError, hfrom, hto]

theorem toNat_lastNumber (last head : UInt64) : (lastNumber last head).toNat = min last.toNat head.toNat := by
  rw [lastNumber]
  split
  next h => rw [min_eq_right (UInt64.lt_iff_toNat_lt.mp h).le]
  next h => rw [min_eq_left (Nat.not_lt.mp fun hlt => h (UInt64.lt_iff_toNat_lt.mpr hlt))]

/-- The width that the query checks, in numbers of blocks. -/
theorem maxLogBlocks_le_width {maxLogBlocks first last head : UInt64} (hlast : first ≤ last) (hhead : first ≤ head) :
    maxLogBlocks ≤ lastNumber last head - first ↔
      maxLogBlocks.toNat < min last.toNat head.toNat + 1 - first.toNat := by
  rw [UInt64.le_iff_toNat_le] at hlast hhead
  have hle : first ≤ lastNumber last head := by
    rw [UInt64.le_iff_toNat_le, toNat_lastNumber]
    exact le_min hlast hhead
  rw [UInt64.le_iff_toNat_le, UInt64.toNat_sub_of_le _ _ hle, toNat_lastNumber]
  omega

theorem width_beyond {first last head : UInt64} (h : head < first) :
    min last.toNat head.toNat + 1 - first.toNat = 0 := by
  have := UInt64.lt_iff_toNat_lt.mp h
  omega

/-- Ranges that end before they start, lie beyond the head or are too wide, and the others. -/
theorem answerRange_cases (E : Env) (l : Ledger) (limits : LogLimits) (marshal : LogEntry → Bytes) (query : FilterQuery)
    (first last head : UInt64) (ctx : Ctx) :
    (last < first ∧ answerRange E l limits marshal query first last head ctx =
      .error (.invalidInput "invalid block range: fromBlock exceeds toBlock")) ∨
    (first ≤ last ∧ head < first ∧ answerRange E l limits marshal query first last head ctx = .ok ([], ctx)) ∨
    (first ≤ last ∧ first ≤ head ∧ limits.maxLogBlocks.toNat < min last.toNat head.toNat + 1 - first.toNat ∧
      ∃ requested, answerRange E l limits marshal query first last head ctx =
        .error (resourceLimit "log block range" requested limits.maxLogBlocks.toNat)) ∨
    (first ≤ last ∧ first ≤ head ∧ min last.toNat head.toNat + 1 - first.toNat ≤ limits.maxLogBlocks.toNat ∧
      answerRange E l limits marshal query first last head ctx =
        collectLogs E l limits marshal query (lastNumber last head) first [] 2 ctx) := by
  by_cases hlast : last < first
  · exact .inl ⟨hlast, by rw [answerRange, failIf, if_pos hlast]; rfl⟩
  · have hordered : first ≤ last := UInt64.not_lt.mp hlast
    have hrange : answerRange E l limits marshal query first last head ctx =
        if head < first then .ok ([], ctx) else
          failIf (limits.maxLogBlocks ≤ lastNumber last head - first) (resourceLimit "log block range"
            (min ((lastNumber last head - first).toNat + 1) maxUint64) limits.maxLogBlocks.toNat) >>= fun _ =>
          collectLogs E l limits marshal query (lastNumber last head) first [] 2 ctx := by
      rw [answerRange, failIf, if_neg hlast]
      rfl
    rw [hrange]
    by_cases hbeyond : head < first
    · exact .inr (.inl ⟨hordered, hbeyond, if_pos hbeyond⟩)
    · have hin : first ≤ head := UInt64.not_lt.mp hbeyond
      rw [if_neg hbeyond, failIf]
      by_cases hwide : limits.maxLogBlocks ≤ lastNumber last head - first
      · rw [if_pos hwide]
        exact .inr (.inr (.inl ⟨hordered, hin, (maxLogBlocks_le_width hordered hin).mp hwide, _, rfl⟩))
      · rw [if_neg hwide]
        exact .inr (.inr (.inr ⟨hordered, hin, not_lt.mp ((maxLogBlocks_le_width hordered hin).not.mp hwide), rfl⟩))

/-- Log queries over a range. A response limit below the empty array refuses everything. Otherwise
a range that ends before it starts and a range that is too wide are refused, a range beyond the
head is empty, and matching logs that fit into the response are returned unless the context is
cancelled. What is returned is always exactly the matching logs, within the limits. -/
theorem logs_exact {first head : UInt64} (hquery : query.blockHash = none)
    (hblock : l.db.currentBlock = some headBlock) (hhead : UInt64.ofNat headBlock.number = head)
    (hfrom : resolveLogBlockNumber E l query.fromBlock latestBlockNumber head = .ok from₀)
    (hto : resolveLogBlockNumber E l query.toBlock latestBlockNumber head = .ok last)
    (hfirst : firstNumber from₀ fromOverride = first) :
    (limits.maxResponseBytes < 2 → logs E l limits marshal query fromOverride ctx =
      .error (resourceLimit "log response bytes" 2 limits.maxResponseBytes)) ∧
    (2 ≤ limits.maxResponseBytes →
      (last < first → logs E l limits marshal query fromOverride ctx =
        .error (.invalidInput "invalid block range: fromBlock exceeds toBlock")) ∧
      (first ≤ last → limits.maxLogBlocks.toNat < min last.toNat head.toNat + 1 - first.toNat →
        ∃ requested, logs E l limits marshal query fromOverride ctx =
          .error (resourceLimit "log block range" requested limits.maxLogBlocks.toNat)) ∧
      (first ≤ last → head < first → logs E l limits marshal query fromOverride ctx = .ok ([], ctx)) ∧
      (first ≤ last → min last.toNat head.toNat + 1 - first.toNat ≤ limits.maxLogBlocks.toNat →
        limits.Admits marshal (logsBetween E l query first last head) →
        (∃ ctx', logs E l limits marshal query fromOverride ctx = .ok (logsBetween E l query first last head, ctx')) ∨
          logs E l limits marshal query fromOverride ctx = .error (.error .canceled) ∧ ctx ≠ none)) ∧
    (∀ out ctx', logs E l limits marshal query fromOverride ctx = .ok (out, ctx') →
      out = logsBetween E l query first last head ∧ limits.Admits marshal out) := by
  subst hhead hfirst
  by_cases hsmall : limits.maxResponseBytes < 2
  · have hrefused : logs E l limits marshal query fromOverride ctx =
        .error (resourceLimit "log response bytes" 2 limits.maxResponseBytes) := by
      rw [logs, failIf, if_pos hsmall]
      rfl
    rw [hrefused]
    exact ⟨fun _ => rfl, fun hbytes => absurd hsmall (not_lt.mpr hbytes), fun _ _ hout => by cases hout⟩
  · have hbytes : 2 ≤ limits.maxResponseBytes := not_lt.mp hsmall
    rw [logs_eq hbytes hquery hblock hfrom hto]
    generalize firstNumber from₀ fromOverride = first
    generalize UInt64.ofNat headBlock.number = head
    obtain ⟨hlast, hanswer⟩ | ⟨hlast, hbeyond, hanswer⟩ | ⟨hlast, hin, hwide, requested, hanswer⟩ |
      ⟨hlast, hin, hwidth, hanswer⟩ := answerRange_cases E l limits marshal query first last head ctx
    · rw [hanswer]
      refine ⟨fun h => absurd h hsmall, fun _ => ⟨fun _ => rfl, ?_, ?_, ?_⟩, fun _ _ hout => by cases hout⟩
      all_goals exact fun hle => absurd hlast (UInt64.not_lt.mpr hle)
    · have hempty : logsBetween E l query first last head = [] := by
        rw [logsBetween, width_beyond hbeyond]
        rfl
      rw [hanswer, hempty]
      refine ⟨fun h => absurd h hsmall, fun _ => ⟨fun hlt => absurd hlt (UInt64.not_lt.mpr hlast), fun _ hwide => ?_,
        fun _ _ => rfl, fun _ _ _ => .inl ⟨ctx, rfl⟩⟩, ?_⟩
      · rw [width_beyond hbeyond] at hwide
        exact absurd hwide (Nat.not_lt_zero _)
      · rintro out ctx' ⟨⟩
        exact ⟨rfl, admits_nil hbytes⟩
    · rw [hanswer]
      exact ⟨fun h => absurd h hsmall, fun _ => ⟨fun hlt => absurd hlt (UInt64.not_lt.mpr hlast),
        fun _ _ => ⟨requested, rfl⟩, fun _ hbeyond => absurd hbeyond (UInt64.not_lt.mpr hin),
        fun _ hwidth => absurd hwide (not_lt.mpr hwidth)⟩, fun _ _ hout => by cases hout⟩
    · have hle : first.toNat ≤ (lastNumber last head).toNat := by
        rw [toNat_lastNumber]
        exact le_min (UInt64.le_iff_toNat_le.mp hlast) (UInt64.le_iff_toNat_le.mp hin)
      have hcollect : Answers limits marshal (logsBetween E l query first last head) ctx
          (collectLogs E l limits marshal query (lastNumber last head) first [] 2 ctx) := by
        have hloop := @collectLogs_answers E l limits marshal query (lastNumber last head) first [] ctx hle
          (admits_nil hbytes)
        rwa [toNat_lastNumber] at hloop
      rw [← hanswer] at hcollect
      refine ⟨fun h => absurd h hsmall, fun _ => ⟨fun hlt => absurd hlt (UInt64.not_lt.mpr hlast),
        fun _ hwide => absurd hwide (not_lt.mpr hwidth), fun _ hbeyond => absurd hbeyond (UInt64.not_lt.mpr hin),
        fun _ _ hadmits => ?_⟩, fun out ctx' hout => ?_⟩
      · generalize answerRange E l limits marshal query first last head ctx = answer at hcollect
        cases hcollect with
        | all _ => exact .inl ⟨_, rfl⟩
        | refused hrefused => exact absurd hadmits hrefused
        | canceled hctx => exact .inr ⟨rfl, hctx⟩
      · rw [hout] at hcollect
        cases hcollect with
        | all hadmits => exact ⟨rfl, hadmits⟩

/-- A chain of three blocks, the first and the last with a transaction that logs. -/
def logged : Ledger :=
  let tx : Transaction := { hash := 31, nonce := 0, gasFeeCap := 1, gasTipCap := 1, cost := 1 }
  (Reference.run [⟨.sendTransaction tx, none⟩, ⟨.mine 2 false, none⟩, ⟨.sendTransaction { tx with hash := 32 }, none⟩,
    ⟨.mine 1 false, none⟩]).toLedger

/-- A query beyond the head gets the logs of the address from both blocks, within the limits. -/
theorem logs_exact_logged :
    let query : FilterQuery := { fromBlock := some 1, toBlock := some 9, addresses := [7] }
    ∃ out ctx, logs Reference.env logged ⟨3, 2, 9⟩ (fun _ => [0, 0, 0]) query none none = .ok (out, ctx) ∧
      out.map (fun entry => (entry.blockNumber, entry.txHash)) = [(1, 31), (3, 32)] := by
  intro query
  obtain ⟨headBlock, hblock, hnumber⟩ : ∃ b, logged.db.currentBlock = some b ∧ b.number = 3 := by decide +kernel
  have hhead : UInt64.ofNat headBlock.number = 3 := by rw [hnumber]; rfl
  have hexact := @logs_exact Reference.env logged ⟨3, 2, 9⟩ (fun _ => [0, 0, 0]) query none none headBlock 1 9 1 3
    rfl hblock hhead rfl rfl rfl
  have hadmits : LogLimits.Admits ⟨3, 2, 9⟩ (fun _ => [0, 0, 0]) (logsBetween Reference.env logged query 1 9 3) :=
    ⟨by decide +kernel, by decide +kernel⟩
  rcases (hexact.2.1 (by decide)).2.2.2 (by decide) (by decide) hadmits with ⟨ctx, h⟩ | ⟨-, h⟩
  · exact ⟨_, ctx, h, by decide +kernel⟩
  · exact absurd rfl h

/-- A query from block five to block three. -/
def backwards : FilterQuery := { fromBlock := some 5, toBlock := some 3 }

/-- With a response limit of one byte it is refused for its size instead. -/
theorem logs_backwards_refused :
    logs Reference.env Reference.start.toLedger ⟨100, 100, 1⟩ (fun _ => []) backwards none none =
      .error (resourceLimit "log response bytes" 2 1) := rfl

end Filters

end Ethertest
