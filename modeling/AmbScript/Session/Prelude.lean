import AmbScript.Parser.Basic

/-!
# The library

Functions that every program may use, written in the language itself. They are run once on every
context, before its first program.
-/

namespace AmbScript.Prelude

def lines : List String :=
  [
    "function is_list(xs) \x7b",
    "    return is_null(xs) || (is_pair(xs) && is_list(tail(xs)));",
    "\x7d",
    "",
    "function length(xs) \x7b",
    "    return is_null(xs) ? 0 : 1 + length(tail(xs));",
    "\x7d",
    "",
    "function map(f, xs) \x7b",
    "    return is_null(xs) ? null : pair(f(head(xs)), map(f, tail(xs)));",
    "\x7d",
    "",
    "function filter(pred, xs) \x7b",
    "    return is_null(xs)",
    "        ? null",
    "        : pred(head(xs))",
    "        ? pair(head(xs), filter(pred, tail(xs)))",
    "        : filter(pred, tail(xs));",
    "\x7d",
    "",
    "function accumulate(f, initial, xs) \x7b",
    "    return is_null(xs) ? initial : f(head(xs), accumulate(f, initial, tail(xs)));",
    "\x7d",
    "",
    "function append(xs, ys) \x7b",
    "    return is_null(xs) ? ys : pair(head(xs), append(tail(xs), ys));",
    "\x7d",
    "",
    "function reverse(xs) \x7b",
    "    function rev(rest, reversed) \x7b",
    "        return is_null(rest)",
    "            ? reversed",
    "            : rev(tail(rest), pair(head(rest), reversed));",
    "    \x7d",
    "    return rev(xs, null);",
    "\x7d",
    "",
    "function member(v, xs) \x7b",
    "    return is_null(xs) ? null : v === head(xs) ? xs : member(v, tail(xs));",
    "\x7d",
    "",
    "function remove(v, xs) \x7b",
    "    return is_null(xs)",
    "        ? null",
    "        : v === head(xs)",
    "        ? tail(xs)",
    "        : pair(head(xs), remove(v, tail(xs)));",
    "\x7d",
    "",
    "function list_ref(xs, n) \x7b",
    "    return n === 0 ? head(xs) : list_ref(tail(xs), n - 1);",
    "\x7d",
    "",
    "function enum_list(start, end) \x7b",
    "    return start > end ? null : pair(start, enum_list(start + 1, end));",
    "\x7d",
    "",
    "function build_list(fun, n) \x7b",
    "    function build(i) \x7b",
    "        return i >= n ? null : pair(fun(i), build(i + 1));",
    "    \x7d",
    "    return build(0);",
    "\x7d",
    "",
    "function for_each(f, xs) \x7b",
    "    if (is_null(xs)) \x7b",
    "        return true;",
    "    \x7d else \x7b",
    "        f(head(xs));",
    "        return for_each(f, tail(xs));",
    "    \x7d",
    "\x7d",
    "",
    "/* Whether the items of a list are pairwise distinct (SICP JS 4.3.2). */",
    "function distinct(items) \x7b",
    "    return is_null(items)",
    "        ? true",
    "        : is_null(tail(items))",
    "        ? true",
    "        : is_null(member(head(items), tail(items)))",
    "        ? distinct(tail(items))",
    "        : false;",
    "\x7d",
    "",
    "function an_element_of(items) \x7b",
    "    require(!is_null(items));",
    "    return amb(head(items), an_element_of(tail(items)));",
    "\x7d",
    "",
    "function an_integer_starting_from(n) \x7b",
    "    return amb(n, an_integer_starting_from(n + 1));",
    "\x7d",
    "",
    "function int_between(low, high) \x7b",
    "    require(low <= high);",
    "    return amb(low, int_between(low + 1, high));",
    "\x7d"
  ]

/-- The text starts and ends with a line feed. -/
def text : String := "\n" ++ "\n".intercalate lines ++ "\n"

def source : Source := ⟨"prelude", text⟩

/-- The library as a program. -/
def parsed : Parsed := parse source

end AmbScript.Prelude
