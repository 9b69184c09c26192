import CppExperiments.Lib.Runs
import CppExperiments.Net.Messages
import CppExperiments.Url.Requests

/-!
# The server of the URL shortener

How a request is read piece by piece, the clients of the server, and which of them stop it: an exception on the way is
not caught.
-/

namespace CppExperiments.Url

open Net (crlfcrlf findFrom)

/-! ## The code -/

/-- What is found of a content length: nothing, something that is not a number, or a number. -/
inductive Announced where
  | missing
  | bad
  | number (contentLen : Int)
  deriving DecidableEq

/-- The number that `stol` reads sixteen characters behind the first `Content-Length`. The position of the line's end
is taken for the length of the text. -/
def announced (buffer : Bytes) : Announced :=
  match find (ascii "Content-Length") buffer with
  | none => .missing
  | some found =>
    let contentLenStart := found + 16
    if buffer.length < contentLenStart then .bad
    else
      let rest := buffer.drop contentLenStart
      match stoll ((findFrom crlf buffer contentLenStart).elim rest rest.take) with
      | none => .bad
      | some contentLen => .number contentLen

/-- One call, with what `recv` delivers, which is nothing at an error or at the end: whether it is the last one, the
buffer and the pending bytes. `none` where it throws. -/
def readRequest (received buffer : Bytes) (pendingBytes : Int) : Option (Bool × Bytes × Int) :=
  if received = [] then some (true, ascii "Error receiving data", pendingBytes)
  else
    let buffer := buffer ++ received
    if pendingBytes ≠ -1 then
      let pendingBytes := pendingBytes - received.length
      some (decide (pendingBytes = 0), buffer, pendingBytes)
    else
      match find crlfcrlf buffer with
      | none => some (false, buffer, pendingBytes)
      | some httpSepPos =>
        match announced buffer with
        | .missing => some (true, buffer, pendingBytes)
        | .bad => none
        | .number contentLen =>
          let extraLen := buffer.length - httpSepPos - 4
          let pendingBytes := contentLen - extraLen
          some (decide (pendingBytes = 0), buffer, pendingBytes)

/-- What is held of a client: the buffer and the pending bytes of its request, or the response. -/
inductive SocketInfo where
  | receiving (buffer : Bytes) (pendingBytes : Int)
  | sending (response : Bytes)

structure Server where
  handler : RequestHandler
  socketInfo : Nat → Option SocketInfo := fun _ => none

/-- What can be ready: the server for a new client, a client for a read, and a client whose response is sent. -/
inductive Ready where
  | accept (client : Nat)
  | receive (client : Nat) (received : Bytes)
  | sent (client : Nat)

namespace Server

variable (files : Files) (keyVec : Bytes)

def put (s : Server) (client : Nat) (info : Option SocketInfo) : Server :=
  { s with socketInfo := Function.update s.socketInfo client info }

/-- One round of the loop; `none` where an exception leaves it. -/
def step (s : Server) : Ready → Option Server
  | .accept client => some (s.put client (some (.receiving [] (-1))))
  | .receive client received =>
    match s.socketInfo client with
    | some (.receiving buffer pendingBytes) =>
      match readRequest received buffer pendingBytes with
      | none => none
      | some (false, buffer, pendingBytes) => some (s.put client (some (.receiving buffer pendingBytes)))
      | some (true, buffer, _) =>
        match s.handler.processRequest files keyVec buffer with
        | none => none
        | some (handler, response) => some ({ s with handler := handler }.put client (some (.sending response)))
    | _ => some s
  | .sent client => some (s.put client none)

end Server

/-! ## What is not read -/

/-- The rest of a body behind an opening quote, whose string does not end, and in which the last character escapes. -/
inductive Escaped (quote : UInt8) : Bytes → Prop where
  | last : Escaped quote [92]
  | plain {ch : UInt8} {rest : Bytes} : ch ≠ quote → ch ≠ 92 → Escaped quote rest → Escaped quote (ch :: rest)
  | pair (ch : UInt8) {rest : Bytes} : Escaped quote rest → Escaped quote (92 :: ch :: rest)

/-- The check of a body comes to a quote, with this rest behind it. -/
inductive Reaches : PostBody → Bytes → UInt8 → Bytes → Prop where
  | here {s : PostBody} {quote : UInt8} {rest : Bytes} : quote = 39 ∨ quote = 34 → Reaches s (quote :: rest) quote rest
  | brace {s : PostBody} {ch quote : UInt8} {body rest : Bytes} : ch = 123 ∨ ch = 125 →
      ¬ ((s.brace = 0 ∧ ch = 125) ∨ s.brace = ch) →
      Reaches { s with brace := ch } body quote rest → Reaches s (ch :: body) quote rest
  | string {s : PostBody} {ch quote : UInt8} {body body' acc rest : Bytes} : ch = 39 ∨ ch = 34 → quoted ch body =
      some (acc, body') →
      acc ≠ [] → s.value = [] →
      Reaches (if s.key = [] then { s with key := acc } else { s with value := acc }) body' quote rest →
        Reaches s (ch :: body) quote rest
  | colon {s : PostBody} {quote : UInt8} {body rest : Bytes} :
      Reaches { s with keyCount := s.keyCount + 1 } body quote rest → Reaches s (58 :: body) quote rest
  | other {s : PostBody} {ch quote : UInt8} {body rest : Bytes} : ch ∉ ([123, 125, 39, 34, 58] : Bytes) →
      Reaches s body quote rest → Reaches s (ch :: body) quote rest

/-- No string of a posted body that the check comes to is cut off behind a backslash. -/
def Answerable (buffer : Bytes) : Prop :=
  ascii "POST" <+: buffer → ∀ pos, find crlfcrlf buffer = some pos → ∀ quote rest,
    Reaches {} (buffer.drop (pos + 4)) quote rest → ¬ Escaped quote rest

/-- With these bytes a request is whole, by the number that is kept or found. -/
def Completed (received buffer : Bytes) (pendingBytes : Int) : Prop :=
  if pendingBytes ≠ -1 then pendingBytes = received.length
  else ∃ pos, find crlfcrlf (buffer ++ received) = some pos ∧ match announced (buffer ++ received) with
    | .missing => True
    | .bad => False
    | .number contentLen => contentLen = ((buffer ++ received).length - pos - 4 : Nat)

/-- A client sends a number where one is looked for, and a request that can be answered. -/
def Server.Allowed (s : Server) : Ready → Prop
  | .receive client received => ∀ buffer pendingBytes, s.socketInfo client = some (.receiving buffer
      pendingBytes) → received ≠ [] →
      (pendingBytes = -1 → find crlfcrlf (buffer ++ received) ≠ none → announced (buffer ++ received) ≠ .bad) ∧
        (Completed received buffer pendingBytes → Answerable (buffer ++ received))
  | .accept _ | .sent _ => True

/-! ## Posted bodies -/

variable {quote ch : UInt8} {body body' acc rest received buffer : Bytes} {s : PostBody} {n : Nat} {pendingBytes : Int}

lemma quoted_eq_none_iff (hquote : quote ≠ 92) : quoted quote body = none ↔ Escaped quote body := by
  induction body using quoted.induct quote with
  | case1 => exact iff_of_false nofun nofun
  | case2 =>
    rw [quoted, if_pos rfl]
    refine iff_of_false nofun fun h => ?_
    cases h with
    | last => exact hquote rfl
    | plain hne _ _ => exact hne rfl
  | case3 hne =>
    rw [quoted, if_neg hne, if_pos rfl]
    exact iff_of_true rfl .last
  | case4 ch hne hplain =>
    rw [quoted, if_neg hne, if_neg hplain]
    refine iff_of_false nofun fun h => ?_
    cases h with
    | last => exact hplain rfl
    | plain _ _ hrest => cases hrest
  | case5 next rest =>
    rw [quoted, if_pos rfl]
    refine iff_of_false nofun fun h => ?_
    cases h with
    | plain hne _ _ => exact hne rfl
    | pair => exact hquote rfl
  | case6 next rest hne ih =>
    rw [quoted, if_neg hne, if_pos rfl, Option.map_eq_none_iff, ih]
    refine ⟨.pair next, fun h => ?_⟩
    cases h with
    | plain _ hplain _ => exact absurd rfl hplain
    | pair _ hrest => exact hrest
  | case7 ch next rest hne hplain ih =>
    rw [quoted, if_neg hne, if_neg hplain, Option.map_eq_none_iff, ih]
    refine ⟨.plain hne hplain, fun h => ?_⟩
    cases h with
    | plain _ _ hrest => exact hrest
    | pair => exact absurd rfl hplain

lemma length_quoted (h : quoted quote body = some (acc, body')) : body'.length ≤ body.length := by
  induction body using quoted.induct quote generalizing acc with
  | case1 =>
    obtain ⟨-, rfl⟩ := Prod.mk.inj (Option.some.inj h)
    exact Nat.le_refl 0
  | case2 =>
    rw [quoted, if_pos rfl] at h
    obtain ⟨-, rfl⟩ := Prod.mk.inj (Option.some.inj h)
    exact Nat.zero_le _
  | case3 hne =>
    rw [quoted, if_neg hne, if_pos rfl] at h
    cases h
  | case4 ch hne hplain =>
    rw [quoted, if_neg hne, if_neg hplain] at h
    obtain ⟨-, rfl⟩ := Prod.mk.inj (Option.some.inj h)
    exact Nat.zero_le _
  | case5 next rest =>
    rw [quoted, if_pos rfl] at h
    obtain ⟨-, rfl⟩ := Prod.mk.inj (Option.some.inj h)
    exact Nat.le_succ _
  | case6 next rest hne ih =>
    rw [quoted, if_neg hne, if_pos rfl, Option.map_eq_some_iff] at h
    obtain ⟨⟨acc', body₁⟩, hquoted, heq⟩ := h
    obtain ⟨-, rfl⟩ := Prod.mk.inj heq
    exact (ih hquoted).trans (Nat.le_add_right _ 2)
  | case7 ch next rest hne hplain ih =>
    rw [quoted, if_neg hne, if_neg hplain, Option.map_eq_some_iff] at h
    obtain ⟨⟨acc', body₁⟩, hquoted, heq⟩ := h
    obtain ⟨-, rfl⟩ := Prod.mk.inj heq
    exact (ih hquoted).trans (Nat.le_succ _)

lemma reaches_brace (hch : ch = 123 ∨ ch = 125) : Reaches s (ch :: body) quote rest ↔
    ¬ ((s.brace = 0 ∧ ch = 125) ∨ s.brace = ch) ∧ Reaches { s with brace := ch } body quote rest := by
  refine ⟨fun h => ?_, fun h => .brace hch h.1 h.2⟩
  cases h with
  | here hquote => rcases hch with rfl | rfl <;> exact absurd hquote (by decide)
  | brace _ hgood hrest => exact ⟨hgood, hrest⟩
  | string hquote => rcases hch with rfl | rfl <;> exact absurd hquote (by decide)
  | colon => exact absurd hch (by decide)
  | other hother => rcases hch with rfl | rfl <;> exact absurd hother (by decide)

lemma reaches_string (hch : ch = 39 ∨ ch = 34) : Reaches s (ch :: body) quote rest ↔
    (quote = ch ∧ rest = body) ∨ ∃ acc body', quoted ch body = some (acc, body') ∧ acc ≠ [] ∧ s.value = [] ∧
      Reaches (if s.key = [] then { s with key := acc } else { s with value := acc }) body' quote rest := by
  constructor
  · intro h
    cases h with
    | here hquote => exact Or.inl ⟨rfl, rfl⟩
    | brace hbrace => rcases hch with rfl | rfl <;> exact absurd hbrace (by decide)
    | string _ hquoted hacc hvalue hrest => exact Or.inr ⟨_, _, hquoted, hacc, hvalue, hrest⟩
    | colon => exact absurd hch (by decide)
    | other hother => rcases hch with rfl | rfl <;> exact absurd hother (by decide)
  · rintro (⟨rfl, rfl⟩ | ⟨acc, body', hquoted, hacc, hvalue, hrest⟩)
    · exact .here hch
    · exact .string hch hquoted hacc hvalue hrest

lemma reaches_colon : Reaches s (58 :: body) quote rest ↔
    Reaches { s with keyCount := s.keyCount + 1 } body quote rest := by
  refine ⟨fun h => ?_, .colon⟩
  cases h with
  | here hquote => exact absurd hquote (by decide)
  | brace hbrace => exact absurd hbrace (by decide)
  | string hquote => exact absurd hquote (by decide)
  | colon hrest => exact hrest
  | other hother => exact absurd hother (by decide)

lemma reaches_other (hch : ch ∉ ([123, 125, 39, 34, 58] : Bytes)) :
    Reaches s (ch :: body) quote rest ↔ Reaches s body quote rest := by
  have hne : ∀ {b : UInt8}, b ∈ ([123, 125, 39, 34, 58] : Bytes) → ch ≠ b := fun hb heq => hch (heq ▸ hb)
  refine ⟨fun h => ?_, .other hch⟩
  cases h with
  | here hquote => exact absurd hquote (not_or.2 ⟨hne (by decide), hne (by decide)⟩)
  | brace hbrace => exact absurd hbrace (not_or.2 ⟨hne (by decide), hne (by decide)⟩)
  | string hquote => exact absurd hquote (not_or.2 ⟨hne (by decide), hne (by decide)⟩)
  | colon => exact absurd (by decide) hch
  | other _ hrest => exact hrest

/-- The check fails exactly where it comes to a string that is cut off. -/
lemma walk_eq_none_iff (hn : body.length ≤ n) :
    PostBody.walk n s body = none ↔ ∃ quote rest, Reaches s body quote rest ∧ Escaped quote rest := by
  induction n generalizing s body with
  | zero =>
    obtain rfl := List.length_eq_zero_iff.1 (Nat.le_zero.1 hn)
    refine iff_of_false nofun ?_
    rintro ⟨quote, rest, hreaches, -⟩
    cases hreaches
  | succ n ih =>
    cases body with
    | nil =>
      refine iff_of_false nofun ?_
      rintro ⟨quote, rest, hreaches, -⟩
      cases hreaches
    | cons ch body =>
      have hbody : body.length ≤ n := Nat.le_of_succ_le_succ hn
      rw [PostBody.walk]
      by_cases hbrace : ch = 123 ∨ ch = 125
      · rw [if_pos hbrace]
        simp only [reaches_brace hbrace]
        split
        · rename_i hbad
          exact iff_of_false nofun fun ⟨_, _, hreaches, _⟩ => hreaches.1 hbad
        · rename_i hgood
          rw [ih hbody]
          simp only [hgood, not_false_eq_true, true_and]
      · rw [if_neg hbrace]
        by_cases hstring : ch = 39 ∨ ch = 34
        · rw [if_pos hstring]
          simp only [reaches_string hstring]
          have hne : ch ≠ 92 := by rcases hstring with rfl | rfl <;> decide
          cases hquoted : quoted ch body with
          | none => exact iff_of_true rfl ⟨ch, body, Or.inl ⟨rfl, rfl⟩, (quoted_eq_none_iff hne).1 hquoted⟩
          | some p =>
            obtain ⟨acc, body'⟩ := p
            have hn' : body'.length ≤ n := (length_quoted hquoted).trans hbody
            have hopen : ¬ Escaped ch body := fun h => by
              rw [(quoted_eq_none_iff hne).2 h] at hquoted
              cases hquoted
            rw [Option.bind_eq_bind, Option.bind_some]
            dsimp only
            split
            · rename_i hbad
              refine iff_of_false nofun ?_
              rintro ⟨quote, rest, ⟨rfl, rfl⟩ | ⟨acc₁, body₁, heq, hacc, hvalue, -⟩, hescaped⟩
              · exact hopen hescaped
              · obtain ⟨rfl, rfl⟩ := Prod.mk.inj (Option.some.inj heq)
                exact hbad.elim hacc (fun h => h hvalue)
            · rename_i hgood
              rw [not_or, not_not] at hgood
              rw [← apply_ite (fun t => PostBody.walk n t body'), ih hn']
              constructor
              · rintro ⟨quote, rest, hreaches, hescaped⟩
                exact ⟨quote, rest, Or.inr ⟨acc, body', rfl, hgood.1, hgood.2, hreaches⟩, hescaped⟩
              · rintro ⟨quote, rest, ⟨rfl, rfl⟩ | ⟨acc₁, body₁, heq, -, -, hreaches⟩, hescaped⟩
                · exact absurd hescaped hopen
                · obtain ⟨rfl, rfl⟩ := Prod.mk.inj (Option.some.inj heq)
                  exact ⟨quote, rest, hreaches, hescaped⟩
        · rw [if_neg hstring]
          by_cases hcolon : ch = 58
          · subst hcolon
            rw [if_pos rfl, ih hbody]
            simp only [reaches_colon]
          · rw [if_neg hcolon, ih hbody]
            rw [not_or] at hbrace hstring
            have hother : ch ∉ ([123, 125, 39, 34, 58] : Bytes) := by simp [hbrace, hstring, hcolon]
            simp only [reaches_other hother]

lemma validatePostBody_eq_none_iff : validatePostBody body = none ↔ ∃ quote rest, Reaches {} body quote rest ∧
    Escaped quote rest :=
  walk_eq_none_iff (Nat.le_refl _)

/-! ## Requests -/

variable {files : Files} {keyVec : Bytes} {r : RequestHandler}

lemma handlePost_eq_none_iff : r.handlePost keyVec body = none ↔ validatePostBody body = none := by
  rw [RequestHandler.handlePost]
  cases validatePostBody body with
  | none => exact iff_of_true rfl rfl
  | some p =>
    refine iff_of_false ?_ nofun
    rw [Option.bind_eq_bind, Option.bind_some]
    dsimp only
    split <;> nofun

lemma processRequest_isSome_iff : (r.processRequest files keyVec buffer).isSome = true ↔ Answerable buffer := by
  rw [RequestHandler.processRequest, Answerable]
  have hsep : crlf ++ crlf = crlfcrlf := rfl
  rw [hsep]
  cases hfind : find crlfcrlf buffer with
  | none => exact iff_of_true rfl fun _ pos h => nomatch h
  | some pos =>
    dsimp only
    by_cases hget : ascii "GET" <+: buffer
    · rw [if_pos hget]
      refine iff_of_true rfl fun hpost => ?_
      obtain ⟨rest, rfl⟩ := hget
      exact absurd (List.cons_prefix_cons.1 hpost).1 (by decide)
    · rw [if_neg hget]
      by_cases hpost : ascii "POST" <+: buffer
      · rw [if_pos hpost, Option.isSome_map, ← Option.ne_none_iff_isSome, ne_eq, handlePost_eq_none_iff,
          validatePostBody_eq_none_iff]
        simp only [hpost, true_imp_iff, Option.some.injEq, forall_eq', not_exists, not_and]
      · rw [if_neg hpost]
        refine iff_of_true ?_ fun h => absurd h hpost
        split <;> rfl

lemma answerable_error : Answerable (ascii "Error receiving data") := fun h => absurd h (by decide)

/-! ## Reads -/

lemma readRequest_pending (hreceived : received ≠ []) (hpending : pendingBytes ≠ -1) :
    readRequest received buffer pendingBytes =
    some (decide (pendingBytes - received.length = 0), buffer ++ received, pendingBytes - received.length) := by
  rw [readRequest, if_neg hreceived]
  exact if_pos hpending

lemma readRequest_early (hreceived : received ≠ []) (hfind : find crlfcrlf (buffer ++ received) = none) :
    readRequest received buffer (-1) = some (false, buffer ++ received, -1) := by
  rw [readRequest, if_neg hreceived]
  dsimp only
  rw [if_neg (by decide), hfind]

lemma readRequest_search (hreceived : received ≠ []) {pos : Nat} (hfind : find crlfcrlf (buffer ++ received) =
    some pos) :
    readRequest received buffer (-1) = match announced (buffer ++ received) with
      | .missing => some (true, buffer ++ received, -1)
      | .bad => none
      | .number contentLen =>
        some (decide (contentLen - ((buffer ++ received).length - pos - 4 : Nat) = 0), buffer ++ received,
          contentLen - ((buffer ++ received).length - pos - 4 : Nat)) := by
  rw [readRequest, if_neg hreceived]
  dsimp only
  rw [if_neg (by decide), hfind]

/-- What a call gives: an exception only where a number is looked for and not found. -/
lemma readRequest_eq (hreceived : received ≠ []) (buffer : Bytes) (pendingBytes : Int) :
    (pendingBytes = -1 ∧ find crlfcrlf (buffer ++ received) ≠ none ∧ announced (buffer ++ received) = .bad ∧
        readRequest received buffer pendingBytes = none) ∨
      ¬ (pendingBytes = -1 ∧ find crlfcrlf (buffer ++ received) ≠ none ∧ announced (buffer ++ received) = .bad) ∧
        ∃ done pendingBytes', readRequest received buffer pendingBytes =
          some (done, buffer ++ received, pendingBytes') ∧
          (done = true ↔ Completed received buffer pendingBytes) := by
  rw [Completed]
  by_cases hpending : pendingBytes = -1
  · subst hpending
    rw [if_neg (by decide)]
    cases hfind : find crlfcrlf (buffer ++ received) with
    | none =>
      refine Or.inr ⟨fun h => h.2.1 rfl, _, _, readRequest_early hreceived hfind, iff_of_false nofun ?_⟩
      rintro ⟨pos, hpos, -⟩
      cases hpos
    | some pos =>
      rw [readRequest_search hreceived hfind]
      cases announced (buffer ++ received) with
      | bad => exact Or.inl ⟨rfl, nofun, rfl, rfl⟩
      | missing => exact Or.inr ⟨nofun, _, _, rfl, iff_of_true rfl ⟨pos, rfl, trivial⟩⟩
      | number contentLen =>
        refine Or.inr ⟨nofun, _, _, rfl, ?_⟩
        simp only [Option.some.injEq, exists_eq_left']
        rw [decide_eq_true_iff, sub_eq_zero]
  · rw [if_pos hpending]
    refine Or.inr ⟨fun h => hpending h.1, _, _, readRequest_pending hreceived hpending, ?_⟩
    rw [decide_eq_true_iff, sub_eq_zero]

namespace Server

/-- A round goes through exactly if the client sends what can be read. -/
lemma step_isSome_iff (s : Server) (e : Ready) : (s.step files keyVec e).isSome = true ↔ s.Allowed e := by
  cases e with
  | accept client => exact iff_of_true rfl trivial
  | sent client => exact iff_of_true rfl trivial
  | receive client received =>
    rw [step, Allowed]
    cases hinfo : s.socketInfo client with
    | none => exact iff_of_true rfl nofun
    | some info =>
      cases info with
      | sending response => exact iff_of_true rfl nofun
      | receiving buffer pendingBytes =>
        have hrespond : ∀ text, (match s.handler.processRequest files keyVec text with
            | none => none
            | some (handler, response) =>
              some ({ s with handler := handler }.put client (some (.sending response)))).isSome = true ↔
                Answerable text := by
          intro text
          rw [← @processRequest_isSome_iff text files keyVec s.handler]
          cases s.handler.processRequest files keyVec text <;> rfl
        dsimp only
        by_cases hreceived : received = []
        · rw [hreceived]
          exact iff_of_true ((hrespond _).2 answerable_error) fun _ _ _ hne => absurd rfl hne
        · rcases readRequest_eq hreceived buffer pendingBytes with ⟨hpending, hfind, hbad, hnone⟩ | ⟨hgood, done, p,
            hsome, hdone⟩
          · rw [hnone]
            exact iff_of_false nofun fun h => (h buffer pendingBytes rfl hreceived).1 hpending hfind hbad
          · rw [hsome]
            cases done with
            | false =>
              refine iff_of_true rfl fun buffer' pendingBytes' heq _ => ?_
              obtain ⟨rfl, rfl⟩ := SocketInfo.receiving.inj (Option.some.inj heq)
              exact ⟨fun hpending hfind hbad => hgood ⟨hpending, hfind, hbad⟩, fun h => Bool.noConfusion (hdone.2 h)⟩
            | true =>
              refine (hrespond _).trans ⟨fun h buffer' pendingBytes' heq _ => ?_, fun h => ?_⟩
              · obtain ⟨rfl, rfl⟩ := SocketInfo.receiving.inj (Option.some.inj heq)
                exact ⟨fun hpending hfind hbad => hgood ⟨hpending, hfind, hbad⟩, fun _ => h⟩
              · exact (h buffer pendingBytes rfl hreceived).2 (hdone.1 rfl)

/-- No exception stops the server exactly if every client sends a number where the length of its body is looked for,
and no body with a string that is cut off behind a backslash. -/
theorem serves_iff (files : Files) (keyVec : Bytes) (s : Server) (events : List Ready) :
    (events.foldlM (step files keyVec) s).isSome = true ↔ Throughout (step files keyVec) Allowed s events :=
  isSome_foldlM_iff step_isSome_iff

/-- A client that sends a content length without a number stops the server. -/
theorem not_serves_bad : ¬ ∀ (files : Files) (keyVec : Bytes) (handler : RequestHandler) (events : List Ready),
    (events.foldlM (step files keyVec) ⟨handler, fun _ => none⟩).isSome = true := by
  intro h
  have hserves := h ⟨fun _ => false, fun _ => []⟩ [1, 2, 3, 4, 5, 6, 7, 8] (.start (ascii "localhost") 8080 0)
    [.accept 5, .receive 5 (ascii "Content-Length\r\n\r\n")]
  exact absurd hserves (by decide)

end Server

end CppExperiments.Url
