/-! # Names that belong to the standard objects

Methods of arrays, strings, objects, promises, numbers, consoles, emitters, streams, maps, sets and
functions, with the timers and the module loader.  A call of one of these names says nothing about
the project's own functions, so the search by name alone passes over them.
-/

namespace LoadBearing.Scope

def builtinNames : List String := [
  "map", "filter", "reduce", "reduceRight", "forEach", "find", "findIndex", "findLast", "some",
  "every", "includes", "indexOf", "lastIndexOf", "push", "pop", "shift", "unshift", "slice",
  "splice", "concat", "join", "sort", "reverse", "flat", "flatMap", "fill", "at", "keys", "values",
  "entries", "from", "of", "isArray",
  "toString", "split", "replace", "replaceAll", "trim", "trimStart", "trimEnd", "toLowerCase",
  "toUpperCase", "startsWith", "endsWith", "padStart", "padEnd", "charAt", "charCodeAt",
  "substring", "substr", "match", "matchAll", "search", "repeat", "localeCompare", "normalize",
  "assign", "create", "freeze", "hasOwnProperty", "defineProperty", "getPrototypeOf", "valueOf",
  "toJSON",
  "then", "catch", "finally", "resolve", "reject", "all", "allSettled", "race", "any",
  "parse", "stringify", "max", "min", "floor", "ceil", "round", "abs", "random", "pow", "sqrt",
  "now", "getTime", "toISOString", "toFixed", "isNaN", "parseInt", "parseFloat",
  "log", "error", "warn", "info", "debug", "trace", "table",
  "emit", "on", "once", "off", "addListener", "removeListener", "pipe", "write", "end", "close",
  "destroy", "read", "send", "next", "get", "set", "has", "delete", "clear", "add", "size",
  "call", "apply", "bind",
  "setTimeout", "setInterval", "clearTimeout", "clearInterval", "require"]

def isBuiltin (name : String) : Bool :=
  builtinNames.contains name

end LoadBearing.Scope
