import RecipeLint.TypeTable

/-!
# The built-in type table

The types of the variables that packages use most, by topic.
-/

namespace RecipeLint.TypeTable

def one (name : String) (basic : BasicType) : Text × VarType :=
  (name.toList, .ofBasic basic false)

def many (name : String) (basic : BasicType) : Text × VarType :=
  (name.toList, .ofBasic basic true)

def only (granted : List Permission) (entry : Text × VarType) : Text × VarType :=
  (entry.1, { entry.2 with permissions := .ofList granted })

def packageIdentity : Entries :=
  [one "PKGNAME" .pkgName,
    one "PKGBASE" .identifier,
    one "PKGVERSION" .version,
    one "PKGVERSION_NOREV" .version,
    one "DISTNAME" .filename,
    one "PKGPATH" .pkgPath,
    many "CATEGORIES" .identifier,
    only [.set, .use] <| one "COMMENT" .comment,
    one "MAINTAINER" .message,
    one "HOMEPAGE" .url,
    many "MASTER_SITES" .url]

def directories : Entries :=
  [only [.use, .useAtLoadTime] <| one "PREFIX" .pathname,
    only [.use, .useAtLoadTime] <| one "LOCALBASE" .pathname,
    only [.use] <| one "WRKDIR" .pathname,
    only [.set, .setDefault, .use] <| one "WRKSRC" .pathname,
    only [.use] <| one "DESTDIR" .pathname,
    one "FILESDIR" .pathname,
    one "PATCHDIR" .pathname,
    one "PKGDIR" .pathname,
    one "PKGMANDIR" .pathname,
    many "INSTALLATION_DIRS" .pathname,
    many "BUILD_DIRS" .pathname,
    many "CONFIGURE_DIRS" .pathname,
    many "DISTFILES" .filename,
    many "PATCHFILES" .filename]

def tools : Entries :=
  [one "CC" .shellCommand,
    one "CXX" .shellCommand,
    one "CPP" .shellCommand,
    one "LD" .shellCommand,
    one "INSTALL" .shellCommand,
    one "INSTALL_DATA" .shellCommand,
    one "INSTALL_PROGRAM" .shellCommand,
    one "INSTALL_SCRIPT" .shellCommand,
    one "INSTALL_DATA_DIR" .shellCommand,
    one "INSTALL_PROGRAM_DIR" .shellCommand,
    one "ECHO" .shellCommand,
    one "SED" .shellCommand,
    one "AWK" .shellCommand,
    one "MKDIR" .shellCommand,
    one "RM" .shellCommand,
    one "CP" .shellCommand,
    one "LN" .shellCommand,
    one "TOOLS_PATH" .pathname,
    one "TOOLS_PATH.*" .pathname,
    one "TOOLS_CMD.*" .pathname,
    many "USE_TOOLS" .tool,
    one "SETENV" .shellCommand,
    one "MAKE_PROGRAM" .shellCommand,
    one "DO_NADA" .shellCommand]

def flags : Entries :=
  [many "CFLAGS" .cFlag,
    many "CXXFLAGS" .cFlag,
    many "CPPFLAGS" .cFlag,
    many "LDFLAGS" .ldFlag,
    many "LIBS" .ldFlag,
    many "CONFIGURE_ARGS" .shellWord,
    many "CONFIGURE_ENV" .shellWord,
    many "MAKE_ENV" .shellWord,
    many "MAKE_FLAGS" .shellWord,
    many "BUILD_TARGET" .identifier,
    many "INSTALL_TARGET" .identifier,
    many "SUBST_SED" .sedCommands,
    many "SUBST_SED.*" .sedCommands,
    many "SUBST_FILES.*" .pathMask]

def options : Entries :=
  [many "PKG_SUPPORTED_OPTIONS" .option,
    many "PKG_SUGGESTED_OPTIONS" .option,
    many "PKG_OPTIONS.*" .option,
    only [.use, .useAtLoadTime] <| many "PKG_OPTIONS" .option]

def owners : Entries :=
  [one "ROOT_USER" .user,
    one "ROOT_GROUP" .user,
    one "BINOWN" .user,
    one "BINGRP" .user,
    one "BINMODE" .integer,
    one "SHAREMODE" .integer]

def miscellaneous : Entries :=
  [many "USE_LANGUAGES" .identifier,
    one "GNU_CONFIGURE" .yes,
    one "NO_CONFIGURE" .yes,
    one "USE_LIBTOOL" .yes,
    only [.use, .useAtLoadTime] <| one "PKG_DEVELOPER" .yesNo,
    only [.use, .useAtLoadTime] <| one "OPSYS" .identifier,
    only [.use, .useAtLoadTime] <| one "MACHINE_ARCH" .identifier,
    many "MESSAGE_SUBST" .shellWord,
    one "EXTRACT_SUFX" .filename]

def builtin : TypeTable :=
  ofList (packageIdentity ++ directories ++ tools ++ flags ++ options ++ owners ++ miscellaneous)

end RecipeLint.TypeTable
