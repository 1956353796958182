import PuppetC.Json.Writer

/-!
# The responses of the server

What the handlers of requests queue: a status and a body.

## Main definitions

* `HttpResponse`.
* `sendError`: `send_error`.
-/

namespace PuppetC

/-- A response, without its headers. -/
structure HttpResponse where
  status : ℕ
  body : Bytes
  deriving DecidableEq

/-- What `snprintf` leaves of a text in a buffer of `size` bytes. -/
def cutTo (size : ℕ) (s : Bytes) : Bytes := s.take (size - 1)

theorem cutTo_of_lt {size : ℕ} {s : Bytes} (h : s.length < size) : cutTo size s = s :=
  List.take_of_length_le (by omega)

/-- The loop of `send_error` that escapes a message, with `j` bytes written so far. -/
def escapeMessage (j : ℕ) : Bytes → Bytes
  | [] => []
  | c :: cs =>
    if 1022 ≤ j then []
    else if c = '\x22' ∨ c = '\x5c' then
      if 1023 ≤ j + 2 then [] else '\x5c' :: c :: escapeMessage (j + 2) cs
    else c :: escapeMessage (j + 1) cs

/-- `send_error`. -/
def sendError (status : ℕ) (message : Bytes) : HttpResponse where
  status := status
  body := cutTo 1536 ("\x7b\x22error\x22: \x22".toList ++ escapeMessage 0 message ++
    "\x22, \x22status\x22: ".toList ++ formatLong status ++ ['\x7d'])

end PuppetC
