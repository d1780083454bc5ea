import Mathlib.Data.List.Basic
import Glossator.Session

/-!
# What a service receives in a session

A call is answered with the help of a service, which is asked by some action. The action that only
answers gives the comments of an engine; the action that notes what it is asked gives its sessions.

* `Session.run_eq`: a run is the answers of fresh engines, and the requests of its calls in order.
* `Session.run_accounts`: what the service receives in a run, and what becomes of the calls for a
  comment.
-/

set_option autoImplicit false

namespace Glossator

namespace Engine

variable {m : Type → Type} [Monad m] {e : Engine}

/-- The comment for a request, if the service is asked by an action. -/
def commentVia (ask : Service → CommentRequest → m (Except Error String)) (e : Engine)
    (request : CommentRequest) : m (Except Error Comment) :=
  match e.service with
  | none => pure (.error (.config .backendDisabled))
  | some service => do
    let written ← ask service request
    return written.map fun s => ⟨s, request.function⟩

/-- The answer to a call, if the service is asked by an action. -/
def answerVia (ask : Service → CommentRequest → m (Except Error String)) (e : Engine) :
    Call → m Answer
  | .extract file content => pure (.of .extraction (e.extract file content))
  | .prepare file content => pure (.of .request (e.prepare file content))
  | .comment file content =>
    match e.prepare file content with
    | .ok request => return .of .comment (← e.commentVia ask request)
    | .error cause => pure (.failure cause)
  | .detect file t => pure (.language (e.detect file t))
  | .languages => pure (.languages languages)
  | .config => pure (.config e.config)

/-- A service that is asked notes the request and answers it. -/
def note (service : Service) (request : CommentRequest) :
    StateM (List CommentRequest) (Except Error String) := do
  modify (· ++ [request])
  return service.answer request

theorem commentVia_answer (request : CommentRequest) :
    e.commentVia (m := Id) (fun service request => pure (service.answer request)) request =
      e.comment request := by
  simp only [commentVia, comment]
  cases e.service <;> rfl

/-- The request that a call brings to a service. -/
def request? (e : Engine) : Call → Option CommentRequest
  | .comment file content => (e.prepare file content).toOption
  | _ => none

/-- What a service receives for a call. -/
def sent (e : Engine) (call : Call) : List CommentRequest :=
  if e.service.isSome then (e.request? call).toList else []

theorem request?_comment {file : String} {content : Bytes} {r : CommentRequest}
    (h : e.prepare file content = .ok r) : e.request? (.comment file content) = some r := by
  rw [request?, h]
  rfl

end Engine

namespace Session

variable {s : Session} {e : Engine}

theorem receive_eq (request : CommentRequest) : s.receive request =
    { s with received := s.received ++ if s.engine.service.isSome then [request] else [] } := by
  unfold receive
  cases s.engine.service <;> simp

/-- A call is answered as by a fresh engine, and adds to what is received what it brings. -/
theorem answer_eq (s : Session) (call : Call) : s.answer call =
    ((answer ⟨s.engine, []⟩ call).1, { s with received := s.received ++ s.engine.sent call }) := by
  cases call with
  | comment file content =>
    simp only [answer, Engine.sent, Engine.request?]
    cases s.engine.prepare file content with
    | ok request => simp [receive_eq, Except.toOption]
    | error cause => simp [Except.toOption]
  | extract | prepare | detect | languages | config =>
    simp [answer, Engine.sent, Engine.request?]

/-- Calls in a row are answered as by fresh engines, and add to what is received what they bring. -/
theorem run_eq (s : Session) (calls : List Call) : s.run calls =
    (calls.map fun call => (answer ⟨s.engine, []⟩ call).1,
      { s with received := s.received ++ calls.flatMap s.engine.sent }) := by
  induction calls generalizing s with
  | nil => simp [run]
  | cons call calls ih =>
    simp only [run, ih]
    rw [answer_eq]
    simp

theorem flatMap_sent {service : Service} (h : e.service = some service) (calls : List Call) :
    calls.flatMap e.sent = calls.filterMap e.request? := by
  have hsent : e.sent = fun call => (e.request? call).toList := by
    funext call
    simp [Engine.sent, h]
  rw [List.filterMap_eq_flatMap_toList, hsent]

theorem flatMap_sent_of_none (h : e.service = none) (calls : List Call) :
    calls.flatMap e.sent = [] := by
  simp [Engine.sent, h]

/-! ### The session of a service that notes what it is asked -/

theorem run_answerVia_note (s : Session) (call : Call) :
    (s.engine.answerVia Engine.note call).run s.received =
      ((s.answer call).1, (s.answer call).2.received) := by
  cases call with
  | comment file content =>
    simp only [Engine.answerVia, answer]
    cases s.engine.prepare file content with
    | ok request =>
      simp only [Engine.commentVia, Engine.comment, receive]
      cases s.engine.service <;> rfl
    | error cause => rfl
  | extract | prepare | detect | languages | config => rfl

/-- A session is what comes of its calls if the service notes what it is asked. -/
theorem run_mapM_note (s : Session) (calls : List Call) :
    (calls.mapM (s.engine.answerVia Engine.note)).run s.received =
      ((s.run calls).1, (s.run calls).2.received) := by
  induction calls generalizing s with
  | nil => rfl
  | cons call calls ih =>
    have hrest := ih (s.answer call).2
    rw [engine_answer] at hrest
    calc ((call :: calls).mapM (s.engine.answerVia Engine.note)).run s.received
        = let (a, received) := (s.engine.answerVia Engine.note call).run s.received
          let (as, received) := (calls.mapM (s.engine.answerVia Engine.note)).run received
          (a :: as, received) := by
          rw [List.mapM_cons]
          rfl
      _ = ((s.run (call :: calls)).1, (s.run (call :: calls)).2.received) := by
          rw [run_answerVia_note]
          simp only [hrest, run]

/-! ### Accounts -/

/-- What a service is told in a run of calls to an engine, and what is answered. -/
structure IsAccounted (e : Engine) (calls : List Call) (answers : List Answer)
    (received : List CommentRequest) : Prop where
  /-- Every answer is the one of a fresh engine. -/
  eq_fresh : answers = calls.map fun call => (answer ⟨e, []⟩ call).1
  /-- A service receives the task, the code and the function of each request that is prepared in a
  call for a comment, once and in order, whatever it answers. -/
  payloads : e.service ≠ none → received.map CommentRequest.payload =
    calls.filterMap fun call => (e.request? call).map fun r =>
      .object [("task", .string r.task), ("code", .string r.code), ("function", .string r.function)]
  unserved : e.service = none → received = []
  /-- A comment is what the service writes for the request that the call brought to it. -/
  commented : ∀ (i : Nat) file content c, calls[i]? = some (Call.comment file content) →
    answers[i]? = some (Answer.comment c) →
      ∃ service r text, e.service = some service ∧ e.prepare file content = .ok r ∧
        received[((calls.take i).filterMap e.request?).length]? = some r ∧
        service.answer r = .ok text ∧ c = ⟨text, r.function⟩
  /-- Without a service no comment is written, and the setting is to blame if a request was
  prepared. -/
  uncommented : e.service = none → ∀ (i : Nat) file content,
    calls[i]? = some (Call.comment file content) →
      ∃ cause, answers[i]? = some (Answer.failure cause) ∧
        ∀ r, e.prepare file content = .ok r →
          cause = .config .backendDisabled ∧ cause.isInvalidInput = false

theorem answer_comment_of_ok {file : String} {content : Bytes} {r : CommentRequest}
    (h : s.engine.prepare file content = .ok r) :
    (s.answer (.comment file content)).1 = .of .comment (s.engine.comment r) := by
  simp only [answer, h]

theorem answer_comment_of_error {file : String} {content : Bytes} {cause : Error}
    (h : s.engine.prepare file content = .error cause) :
    (s.answer (.comment file content)).1 = .failure cause := by
  simp only [answer, h]

/-- A call for a comment succeeds exactly if its request is prepared and the service writes. -/
theorem answer_comment_eq_comment_iff {file : String} {content : Bytes} {c : Comment} :
    (s.answer (.comment file content)).1 = .comment c ↔ ∃ service r text,
      s.engine.service = some service ∧ s.engine.prepare file content = .ok r ∧
        service.answer r = .ok text ∧ c = ⟨text, r.function⟩ := by
  cases hprepare : s.engine.prepare file content with
  | error cause => simp [answer_comment_of_error hprepare]
  | ok r =>
    rw [answer_comment_of_ok hprepare, Engine.comment]
    cases s.engine.service with
    | none => simp [Answer.of]
    | some service =>
      cases hwritten : service.answer r <;>
        simp [Answer.of, Except.map, hwritten, eq_comm]

/-- What is received for the call at a place stands behind what was received for those before. -/
theorem getElem?_filterMap_request? {calls : List Call} {i : Nat} {call : Call} {r : CommentRequest}
    (hcall : calls[i]? = some call) (hr : e.request? call = some r) :
    (calls.filterMap e.request?)[((calls.take i).filterMap e.request?).length]? = some r := by
  obtain ⟨hi, rfl⟩ := List.getElem?_eq_some_iff.1 hcall
  have hcalls : calls = calls.take i ++ calls[i] :: calls.drop (i + 1) := by
    rw [List.getElem_cons_drop, List.take_append_drop]
  conv_lhs => rw [hcalls]
  rw [List.filterMap_append, List.filterMap_cons, hr]
  simp

/-- In a run of calls to a fresh engine, the service receives the requests that are prepared in the
calls for a comment, and the calls come to what they would come to alone. The run is the one with a
service that notes what it is asked, and leaves the engine as it was. -/
theorem run_accounts (e : Engine) (calls : List Call) :
    IsAccounted e calls (run ⟨e, []⟩ calls).1 (run ⟨e, []⟩ calls).2.received ∧
      (run ⟨e, []⟩ calls).2.engine = e ∧
      (calls.mapM (e.answerVia Engine.note)).run [] =
        ((run ⟨e, []⟩ calls).1, (run ⟨e, []⟩ calls).2.received) := by
  refine ⟨?_, by rw [run_eq], run_mapM_note ⟨e, []⟩ calls⟩
  have hanswer {i : Nat} {call : Call} (h : calls[i]? = some call) :
      (run ⟨e, []⟩ calls).1[i]? = some (answer ⟨e, []⟩ call).1 := by
    rw [run_eq, List.getElem?_map, h, Option.map_some]
  have hreceived : (run ⟨e, []⟩ calls).2.received = calls.flatMap e.sent := by
    rw [run_eq, List.nil_append]
  refine ⟨by rw [run_eq], ?payloads, ?unserved, ?commented, ?uncommented⟩
  case payloads =>
    intro hservice
    obtain ⟨service, hservice⟩ := Option.ne_none_iff_exists'.1 hservice
    rw [hreceived, flatMap_sent hservice, List.map_filterMap]
    rfl
  case unserved =>
    intro hservice
    rw [hreceived, flatMap_sent_of_none hservice]
  case commented =>
    intro i file content c hcall hc
    rw [hanswer hcall, Option.some.injEq] at hc
    obtain ⟨service, r, text, hservice, hprepare, hwritten, rfl⟩ :=
      answer_comment_eq_comment_iff.1 hc
    refine ⟨service, r, text, hservice, hprepare, ?_, hwritten, rfl⟩
    rw [hreceived, flatMap_sent hservice]
    exact getElem?_filterMap_request? hcall (Engine.request?_comment hprepare)
  case uncommented =>
    intro hservice i file content hcall
    rw [hanswer hcall]
    cases hprepare : e.prepare file content with
    | error cause =>
      rw [answer_comment_of_error (s := ⟨e, []⟩) hprepare]
      refine ⟨cause, rfl, fun r hr => ?_⟩
      cases hr
    | ok r =>
      rw [answer_comment_of_ok (s := ⟨e, []⟩) hprepare, Engine.comment, hservice]
      exact ⟨_, rfl, fun _ _ => ⟨rfl, rfl⟩⟩

end Session

end Glossator
