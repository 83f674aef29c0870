/-
`HttpClient.lean` -- `http_client.cpp`: one JSON document per URL, from the cache or from
the network.

libcurl is outside the repository. A transfer is what the program sees of it: the header
lines handed to `header_callback` one by one, the pieces of the body handed to
`write_callback`, the result code and the status.

`header_callback` stores what `parse_cache_control` says about *each* line, so a line
without a `max-age` takes back what an earlier one had set. libcurl also hands over the
empty line that ends the headers, so that is always the last word. The last section
draws the consequence.
-/
import OidcValidator.HttpCache
import OidcValidator.Picojson
import OidcValidator.Regex

set_option autoImplicit false

namespace OidcValidator.HttpClient

open OidcValidator.ByteString OidcValidator.Number OidcValidator.Control
open OidcValidator.PgUtils OidcValidator.Dshash OidcValidator.HttpCache
open OidcValidator.Picojson (Value ParseResult parse)

/-! ## `Cache-Control` -/

/-- `R"(^cache-control:.*max-age\s*=\s*(\d+))"` with `icase`, behind the `^`. -/
def cache_control_regex : Regex.Expr :=
  .seq (Regex.classes ((bytes "cache-control:").map Regex.lit_icase)) <|
  .seq (.star Regex.dot) <|
  .seq (Regex.classes ((bytes "max-age").map Regex.lit_icase)) <|
  .seq (.star isspace) <|
  .seq (.char (Regex.lit 61)) <|
  .seq (.star isspace) <|
  .group (Regex.plus isdigit)

/-- `std::from_chars` into an `int`, on digits. -/
def from_chars (digits : Bytes) : Option ℤ :=
  if nat_of_digits digits < 2 ^ 31 then some (nat_of_digits digits) else none

/-- `http_client::parse_cache_control`. -/
def parse_cache_control (header : Bytes) : Option ℤ :=
  match Regex.match_at cache_control_regex header with
  | some m =>
      match m.groups with
      | matched_digits :: _ => from_chars matched_digits
      | [] => none
  | none => none

/-- `http_client::header_callback`, as what it does to `last_max_age_`. -/
def header_callback (_last_max_age : Option ℤ) (header : Bytes) : Option ℤ :=
  parse_cache_control header

/-! ## Transfers -/

/-- What one `curl_easy_perform` does: the header lines, the pieces of the body, the text of
the error code if it is not `CURLE_OK`, and the status. -/
structure Response where
  headers : List Bytes
  body : List Bytes
  error : Option Bytes
  response_code : ℤ

/-- The part of a process that the client works on, next to the rest: whether libcurl can be
initialised, the transfers to come, and the client's `last_max_age_`. -/
structure Client (τ : Type) where
  curl : Bool
  responses : ℕ → Response
  transfers : ℕ
  last_max_age_ : Option ℤ
  rest : τ

/-- A backend with the cache and a client. -/
abbrev ClientWorld (τ : Type) := World (Client τ)

variable {τ : Type} (hash : Bytes → ℕ)

/-- Change the client. -/
def modify_client (f : Client τ → Client τ) : Prog CppException (ClientWorld τ) Unit :=
  modify fun u => { u with rest := { u.rest with rest := f u.rest.rest } }

/-- The constructor of `http_client`. -/
def http_client : Prog CppException (ClientWorld τ) Unit := do
  let u ← Control.get
  if u.rest.rest.curl then modify_client fun c => { c with last_max_age_ := none }
  else throw (runtime_error (bytes "Failed to initialize libcurl"))

/-- `curl_easy_perform`: the next transfer, with its header lines run through
`header_callback`. -/
def curl_easy_perform : Prog CppException (ClientWorld τ) Response := do
  let u ← Control.get
  let response := u.rest.rest.responses u.rest.rest.transfers
  modify_client fun c =>
    { c with transfers := c.transfers + 1
             last_max_age_ := response.headers.foldl header_callback c.last_max_age_ }
  pure response

/-- From `last_max_age_ = std::nullopt` to the end of the transfer. -/
def transfer : Prog CppException (ClientWorld τ) Response := do
  modify_client fun c => { c with last_max_age_ := none }
  curl_easy_perform

/-! ## `get_json` -/

/-- The value `picojson::parse` leaves behind, with its error text turned into an exception
by `fail`. -/
def parse_json (json : Bytes) (fail : Bytes → CppException) : Except CppException Value :=
  match parse json with
  | .value v => .ok v
  | .error e => .error (fail e)
  | .overflow_error => .error ⟨.overflow_error, []⟩

/-- The caching decision at the end of `get_json`. -/
def store (url json_string : Bytes) : Prog CppException (ClientWorld τ) Unit :=
  pg_try do
    let u ← Control.get
    match u.rest.rest.last_max_age_ with
    | some max_age =>
        if 0 < max_age then do
          let cached ← put hash url json_string max_age
          if cached then
            elog .DEBUG1 (bytes "Cached HTTP response for " ++ dec_int max_age
              ++ bytes " seconds: " ++ c_str url)
          else pure ()
        else
          elog .DEBUG2 (bytes "Not caching response (no valid Cache-Control): " ++ c_str url)
    | none => elog .DEBUG2 (bytes "Not caching response (no valid Cache-Control): " ++ c_str url)

/-- `get_json` from the cache miss on. -/
def fetch (url : Bytes) : Prog CppException (ClientWorld τ) Value := do
  pg_try (elog .DEBUG1 (bytes "HTTP cache miss for URL: " ++ c_str url))
  alloc
  let response ← transfer
  match response.error with
  | some text => throw (runtime_error (bytes "HTTP request failed: " ++ text))
  | none =>
      if response.response_code ≠ 200 then
        throw (runtime_error (bytes "HTTP request returned status code: "
          ++ dec_int response.response_code))
      else do
        let json_string := response.body.flatten
        let json_result ← of_except (parse_json json_string fun parse_error =>
          runtime_error (bytes "JSON parsing failed: " ++ parse_error))
        store hash url json_string
        pure json_result

/-- `get_json` on a cache hit. -/
def from_cache (url cached_json : Bytes) : Prog CppException (ClientWorld τ) Value :=
  match parse cached_json with
  | .value json_result => do
      pg_try (elog .DEBUG1 (bytes "HTTP cache hit for URL: " ++ c_str url))
      pure json_result
  | .error parse_error => do
      pg_try (elog .WARNING (bytes "Cached JSON parsing failed, refetching: "
        ++ c_str parse_error))
      fetch hash url
  | .overflow_error => throw ⟨.overflow_error, []⟩

/-- `http_client::get_json`. -/
def get_json (url : Bytes) : Prog CppException (ClientWorld τ) Value := do
  let cached_json ← HttpCache.get hash url
  match cached_json with
  | some cached_json => from_cache hash url cached_json
  | none => fetch hash url

/-! ## Frames -/

theorem framed_transfer : Framed (fun u => u.rest.rest.rest) (transfer : Prog CppException (ClientWorld τ) Response) := by
  refine Framed.bind (Framed.modify fun _ => rfl) fun _ => Framed.bind Framed.get fun _ => ?_
  exact Framed.bind (Framed.modify fun _ => rfl) fun _ => Framed.pure _

theorem framed_store (url json_string : Bytes) :
    Framed (fun u => u.rest.rest.rest) (store hash url json_string : Prog CppException (ClientWorld τ) Unit) := by
  refine framed_pg_try (Framed.bind Framed.get fun u => ?_)
  cases u.rest.rest.last_max_age_ with
  | none => exact Framed.elog _ _
  | some max_age =>
    refine Framed.ite (Framed.bind ((framed_put _ _ _ _).comp Client.rest) fun cached => ?_) (Framed.elog _ _)
    exact Framed.ite (Framed.elog _ _) (Framed.pure _)

theorem framed_fetch (url : Bytes) :
    Framed (fun u => u.rest.rest.rest) (fetch hash url : Prog CppException (ClientWorld τ) Value) := by
  refine Framed.bind (framed_pg_try (Framed.elog _ _)) fun _ => ?_
  refine Framed.bind Framed.alloc fun _ => Framed.bind framed_transfer fun response => ?_
  cases response.error with
  | some text => exact Framed.throw _
  | none =>
    refine Framed.ite (Framed.throw _) (Framed.bind (Framed.of_except _) fun _ => ?_)
    exact Framed.bind (framed_store _ _ _) fun _ => Framed.pure _

theorem framed_from_cache (url cached_json : Bytes) :
    Framed (fun u => u.rest.rest.rest)
      (from_cache hash url cached_json : Prog CppException (ClientWorld τ) Value) := by
  unfold from_cache
  cases parse cached_json with
  | value v => exact Framed.bind (framed_pg_try (Framed.elog _ _)) fun _ => Framed.pure _
  | error e => exact Framed.bind (framed_pg_try (Framed.elog _ _)) fun _ => framed_fetch _ _
  | overflow_error => exact Framed.throw _

/-- `get_json` is balanced and leaves the rest alone. -/
theorem framed_get_json (url : Bytes) :
    Framed (fun u => u.rest.rest.rest)
      (get_json hash url : Prog CppException (ClientWorld τ) Value) := by
  refine Framed.bind ((framed_get _ _).comp Client.rest) fun cached_json => ?_
  cases cached_json with
  | none => exact framed_fetch _ _
  | some cached_json => exact framed_from_cache _ _ _

/-! ## What `last_max_age_` says after a transfer -/

/-- A line that does not begin with a `c` has no `max-age`. -/
theorem parse_cache_control_eq_none {line : Bytes}
    (h : ∀ b ∈ line.head?, Regex.lit_icase 99 b = false) : parse_cache_control line = none := by
  have hrun : cache_control_regex.run line = [] := by
    -- the first letter of the name of the header is enough
    have hclasses : (Regex.classes ((bytes "cache-control:").map Regex.lit_icase)).run line
        = [] := by
      rw [Regex.classes_run]
      cases line with
      | nil => rfl
      | cons b line =>
        have hb : Regex.lit_icase 99 b = false := h b rfl
        have hrow : Regex.match_row ((bytes "cache-control:").map Regex.lit_icase) (b :: line)
            = none := by
          show (if Regex.lit_icase 99 b then _ else none) = none
          rw [hb]
          rfl
        rw [hrow]
        rfl
    unfold cache_control_regex
    rw [Regex.Expr.run, hclasses, List.flatMap_nil]
  unfold parse_cache_control Regex.match_at
  rw [hrun]
  rfl

/-- The last line has the last word. -/
theorem foldl_header_callback_concat (last : Option ℤ) (lines : List Bytes) (line : Bytes) :
    (lines ++ [line]).foldl header_callback last = parse_cache_control line := by
  rw [List.foldl_append]
  rfl

/-- The transfer that the next `get_json` to reach the network will make. -/
def next_response (m : Machine CppException (ClientWorld τ)) : Response :=
  m.user.rest.rest.responses m.user.rest.rest.transfers

/-- The `last_max_age_` that the caching decision of a `get_json` reads whose transfer
starts from `m`. -/
def max_age_used (m : Machine CppException (ClientWorld τ)) : Option ℤ :=
  (transfer m).2.user.rest.rest.last_max_age_

theorem max_age_used_eq (m : Machine CppException (ClientWorld τ)) :
    max_age_used m = (next_response m).headers.foldl header_callback none := rfl

/-- The client after a sequence of `get_json` calls, each of which may return or throw. -/
def session : List Bytes → Machine CppException (ClientWorld τ) →
    Machine CppException (ClientWorld τ)
  | [], m => m
  | url :: urls, m =>
      match get_json hash url m with
      | (.ret _, m') => session urls m'
      | (.throw _, m') => session urls m'
      | (_, m') => m'

/-- The `max-age` of the one line that has one. -/
def expected_max_age (lines : List Bytes) : Option ℤ := lines.findSome? parse_cache_control

/-- A client at time 0 whose next transfer is `response`. -/
def client_machine (response : Response) : Machine CppException (ClientWorld Unit) where
  exception_stack := some 0
  error_data := []
  memory_context := .other 0
  next_buffer := 1
  next_error := 0
  faults _ := .none
  ticks := 0
  log := []
  user :=
    { table := Table.empty, held := [], trace := [], failures := fun _ => .none,
      memory := blank_entry, segment := none, state_lock := false, next_handle := 0,
      rest :=
        { cache_ := none, clock := fun _ => 0, clock_reads := 0,
          rest :=
            { curl := true, responses := fun _ => response, transfers := 0,
              last_max_age_ := none, rest := () } } }

/-- A response with the given field. -/
def response_with (field : String) : Response where
  headers := [bytes "HTTP/1.1 200 OK\r\n", bytes field, bytes "\r\n"]
  body := [bytes "1"]
  error := none
  response_code := 200

end OidcValidator.HttpClient
